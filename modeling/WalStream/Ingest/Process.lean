/-
`Ingestor.process_message` over a replication stream.

Each record of a message is written to the Redis stream and then to the Kafka topic; once
all are, the message's position is acknowledged to PostgreSQL. Whatever raises on the way
ends the message, and `consume_stream` goes on to the next one. The entries and the
acknowledgements carry the number of the message they come from, so "published" speaks of
one record of one message, not of an equal record of another.

Published is not the same as being there still. Every `XADD` lets Redis trim the stream, and
what it trims away is gone from Redis for good. So the state has everything that was added,
which is what acknowledgements are about, and how much of it is trimmed by now; `Retains` says
what that leaves in the stream.
-/
import WalStream.Ingest.Parse
import WalStream.Lib.Log
import Mathlib.Data.List.Induction

set_option autoImplicit false

namespace WalStream.Ingest

open Lib

/-! ## Messages and the two stores

A delivery carries what each of its calls will meet. So `process_message` is a function, and a
failure can be placed at any call, before or after it took effect. -/

/-- How a call to Redis, to Kafka or to the replication cursor ends. A call that raises,
a timeout included, may have taken effect all the same. -/
inductive CallOutcome
  | ok
  | raised (done : Bool)
deriving DecidableEq, Repr

/-- The call took effect. -/
def CallOutcome.done : CallOutcome → Bool
  | .ok => true
  | .raised done => done

/-- The call did not raise. -/
def CallOutcome.succeeded : CallOutcome → Bool
  | .ok => true
  | .raised _ => false

/-- A call that did not raise took effect; the converse is what fails when a call times out. -/
theorem CallOutcome.done_of_succeeded {o : CallOutcome} (h : o.succeeded = true) :
    o.done = true := by
  cases o with
  | ok => rfl
  | raised done => cases h

/-- A replication message, together with the clock and with what each call made for it
meets: `xadd i` and `send i` are the calls for its `i`-th record, and `evict i` is how many
entries Redis is about to evict on the former. -/
structure Delivery where
  data_start : Nat
  /-- The decoded payload; `none` when `json.loads` raises. -/
  payload : Option Json
  now_ms : Int
  xadd : Nat → CallOutcome
  send : Nat → CallOutcome
  send_feedback : CallOutcome
  evict : Nat → Nat := fun _ => 0

/-- The records `parse_wal2json_v2` yields for the message; `none` when decoding or
parsing raises. -/
def Delivery.records (host : Host) (d : Delivery) : Option (List ChangeRecord) :=
  d.payload.bind fun payload => parse_wal2json_v2 host d.now_ms payload d.data_start

/-- A published record: the `index`-th of the `message`-th message. -/
structure Entry where
  message : Nat
  index : Nat
  record : ChangeRecord
deriving DecidableEq

/-- A `send_feedback(flush_lsn=…)`, sent when `after` messages had been delivered. -/
structure Feedback where
  flush_lsn : Nat
  after : Nat
deriving DecidableEq, Repr

/-- The ingestor, the stores it writes and the acknowledgements it sent. -/
structure Ingestor where
  delivered : List Delivery
  /-- Every entry that was added to the Redis stream, the oldest first. -/
  redis : List Entry
  kafka : List Entry
  feedback : List Feedback
  /-- How many of the oldest entries are trimmed away. -/
  trimmed : Nat := 0

/-- The Redis stream as it is now. -/
def Ingestor.stream (s : Ingestor) : List Entry := s.redis.drop s.trimmed

/-- The ingestor before the first message. -/
def Ingestor.start : Ingestor := { delivered := [], redis := [], kafka := [], feedback := [] }

/-! ## `process_message`

The loop over the records, each published to Redis and then to Kafka; the first call that raises
ends it, and the message is not acknowledged. -/

/-- `XADD … MAXLEN ~ n`. With `~` Redis evicts whole nodes when it sees fit, so how many of
the oldest entries go is its choice, as long as `n` are left. -/
def Ingestor.xadd (host : Host) (s : Ingestor) (e : Entry) (evict : Nat) : Ingestor :=
  { s with
    redis := s.redis ++ [e],
    trimmed := min (s.trimmed + evict) (s.redis.length + 1 - host.redis_stream_maxlen) }

/-- A message is written to its partition. -/
def Ingestor.send (s : Ingestor) (e : Entry) : Ingestor := { s with kafka := s.kafka ++ [e] }

/-- `publish_to_redis`: the new state and whether the call returned. -/
def publish_to_redis (host : Host) (s : Ingestor) (e : Entry) (evict : Nat) (o : CallOutcome) :
    Ingestor × Bool :=
  (if o.done then s.xadd host e evict else s, o.succeeded)

/-- `publish_to_kafka`. -/
def publish_to_kafka (s : Ingestor) (e : Entry) (o : CallOutcome) : Ingestor × Bool :=
  (if o.done then s.send e else s, o.succeeded)

/-- The loop over the records of message number `n`, from the `i`-th on. -/
def publish_all (host : Host) (n : Nat) (d : Delivery) :
    Nat → List ChangeRecord → Ingestor → Ingestor × Bool
  | _, [], s => (s, true)
  | i, r :: rs, s =>
      match publish_to_redis host s ⟨n, i, r⟩ (d.evict i) (d.xadd i) with
      -- an exception leaves the loop, the records after it included
      | (s, false) => (s, false)
      | (s, true) =>
          match publish_to_kafka s ⟨n, i, r⟩ (d.send i) with
          | (s, false) => (s, false)
          | (s, true) => publish_all host n d (i + 1) rs s

/-- `msg.cursor.send_feedback(flush_lsn=msg.data_start)`. -/
def acknowledge (s : Ingestor) (d : Delivery) : Ingestor × Bool :=
  (if d.send_feedback.done then
      { s with feedback := s.feedback ++ [⟨d.data_start, s.delivered.length⟩] }
    else s,
   d.send_feedback.succeeded)

/-- `process_message`. -/
def process_message (host : Host) (s : Ingestor) (d : Delivery) : Ingestor × Bool :=
  let n := s.delivered.length
  let s := { s with delivered := s.delivered ++ [d] }
  match d.records host with
  -- a payload that does not decode or parse: nothing is written or acknowledged
  | none => (s, false)
  | some records =>
      match publish_all host n d 0 records s with
      | (s, false) => (s, false)
      | (s, true) => acknowledge s d

/-- `consume_stream`: every message in turn, whatever became of the ones before. -/
def consume_stream (host : Host) (ds : List Delivery) : Ingestor :=
  ds.foldl (fun s d => (process_message host s d).1) .start

/-! ## What a message's calls amount to

From the outcomes of the calls: how far the loop gets, and which records are in both stores
afterwards. The state of the ingestor is not needed to say it. -/

section

variable {host : Host} {s : Ingestor} {d : Delivery} {n i : Nat} {rs : List ChangeRecord}

/-- The loop gets to the `i`-th record: no call for an earlier one raises. -/
def Delivery.reaches (d : Delivery) (i : Nat) : Bool :=
  (List.range i).all fun j => (d.xadd j).succeeded && (d.send j).succeeded

/-- The `i`-th record ends up in both stores. -/
def Delivery.stores (d : Delivery) (i : Nat) : Bool :=
  d.reaches i && (d.xadd i).succeeded && (d.send i).done

/-- Some record of the message does not end up in both stores. -/
def Delivery.Loses (host : Host) (d : Delivery) : Prop :=
  ∃ rs, d.records host = some rs ∧ ∃ i < rs.length, d.stores i = false

/-- The message parses, no call for a record of it raises, and its feedback is sent. -/
def Delivery.Sends (host : Host) (d : Delivery) : Prop :=
  ∃ rs, d.records host = some rs ∧ d.reaches rs.length = true ∧ d.send_feedback.done = true

/-- The loop gets past a record exactly when neither of its two calls raises. -/
theorem reaches_succ : d.reaches (i + 1) = true ↔
    d.reaches i = true ∧ (d.xadd i).succeeded = true ∧ (d.send i).succeeded = true := by
  simp only [Delivery.reaches, List.range_succ, List.all_append, List.all_cons, List.all_nil,
    Bool.and_true, Bool.and_eq_true]

/-- So it has got to every record before the one it is at. -/
theorem reaches_of_le {j : Nat} (h : d.reaches j = true) (hij : i ≤ j) : d.reaches i = true := by
  -- reaching a record means having reached every earlier one
  induction j with
  | zero =>
      obtain rfl : i = 0 := by omega
      exact h
  | succ j ih =>
      rcases Nat.eq_or_lt_of_le hij with rfl | hlt
      · exact h
      · exact ih (reaches_succ.mp h).1 (by omega)

@[simp] theorem xadd_redis (e : Entry) (evict : Nat) :
    (s.xadd host e evict).redis = s.redis ++ [e] := rfl

@[simp] theorem xadd_kafka (e : Entry) (evict : Nat) :
    (s.xadd host e evict).kafka = s.kafka := rfl

@[simp] theorem xadd_delivered (e : Entry) (evict : Nat) :
    (s.xadd host e evict).delivered = s.delivered := rfl

@[simp] theorem xadd_feedback (e : Entry) (evict : Nat) :
    (s.xadd host e evict).feedback = s.feedback := rfl

@[simp] theorem send_redis (e : Entry) : (s.send e).redis = s.redis := rfl

@[simp] theorem send_kafka (e : Entry) : (s.send e).kafka = s.kafka ++ [e] := rfl

@[simp] theorem send_delivered (e : Entry) : (s.send e).delivered = s.delivered := rfl

@[simp] theorem send_feedback_eq (e : Entry) : (s.send e).feedback = s.feedback := rfl

/-- Neither call for the `i`-th record raises: it is in both stores, and the loop goes on. -/
theorem publish_all_next {r : ChangeRecord} (hx : (d.xadd i).succeeded = true)
    (hs : (d.send i).succeeded = true) :
    publish_all host n d i (r :: rs) s = publish_all host n d (i + 1) rs
      ((s.xadd host ⟨n, i, r⟩ (d.evict i)).send ⟨n, i, r⟩) := by
  simp [publish_all, publish_to_redis, publish_to_kafka, hx, hs,
    CallOutcome.done_of_succeeded hx, CallOutcome.done_of_succeeded hs]

/-- Whatever the loop has passed is in both stores: a call that lost a record without raising
does not exist. -/
theorem stores_of_reaches {j : Nat} (h : d.reaches j = true) (hij : i < j) :
    d.stores i = true := by
  obtain ⟨hi, hx, hs⟩ := reaches_succ.mp (reaches_of_le h hij)
  simp only [Delivery.stores, hi, hx, CallOutcome.done_of_succeeded hs, Bool.and_self]

/-- Existence over the places of a list with one more in front. The entries carry their places,
and the induction over the records shifts all of them by one. -/
private theorem exists_getElem?_cons {α : Type} {a : α} {as : List α} {Q : Nat → α → Prop} :
    (∃ k x, (a :: as)[k]? = some x ∧ Q k x) ↔ Q 0 a ∨ ∃ k x, as[k]? = some x ∧ Q (1 + k) x := by
  constructor
  · rintro ⟨k, x, hk, hQ⟩
    cases k with
    | zero =>
        cases hk
        exact Or.inl hQ
    | succ k => exact Or.inr ⟨k, x, hk, by rwa [Nat.add_comm 1 k]⟩
  · rintro (hQ | ⟨k, x, hk, hQ⟩)
    · exact ⟨0, a, rfl, hQ⟩
    · exact ⟨k + 1, x, hk, by rwa [Nat.add_comm 1 k] at hQ⟩

/-- What the loop leaves behind: the acknowledgements are untouched, each store has gained
the records whose call took effect, and it ran to its end exactly when no call raised. -/
theorem publish_all_spec (hreach : d.reaches i = true) :
    (publish_all host n d i rs s).1.delivered = s.delivered ∧
    (publish_all host n d i rs s).1.feedback = s.feedback ∧
    (∀ e, e ∈ (publish_all host n d i rs s).1.redis ↔ e ∈ s.redis ∨ ∃ k r, rs[k]? = some r ∧
      e = ⟨n, i + k, r⟩ ∧ d.reaches (i + k) = true ∧ (d.xadd (i + k)).done = true) ∧
    (∀ e, e ∈ (publish_all host n d i rs s).1.kafka ↔ e ∈ s.kafka ∨ ∃ k r, rs[k]? = some r ∧
      e = ⟨n, i + k, r⟩ ∧ d.stores (i + k) = true) ∧
    ((publish_all host n d i rs s).2 = true ↔ d.reaches (i + rs.length) = true) := by
  -- on the records left, with the index and the stores the loop has come to
  induction rs generalizing i s with
  | nil => simp [publish_all, hreach]
  | cons r rs ih =>
      simp only [exists_getElem?_cons, ← Nat.add_assoc, Nat.add_zero, List.length_cons]
      by_cases hnext : d.reaches (i + 1) = true
      · -- neither call raises, so both take effect and the loop goes on
        obtain ⟨_, hx, hs⟩ := reaches_succ.mp hnext
        have hstores := stores_of_reaches hnext (Nat.lt_succ_self i)
        obtain ⟨hdel, hfb, hredis, hkafka, hok⟩ := ih hnext
          (s := (s.xadd host ⟨n, i, r⟩ (d.evict i)).send ⟨n, i, r⟩)
        rw [publish_all_next hx hs]
        refine ⟨hdel, hfb, fun e => ?_, fun e => ?_, ?_⟩
        · rw [hredis]
          simp [hreach, CallOutcome.done_of_succeeded hx, or_assoc]
        · rw [hkafka]
          simp [hstores, or_assoc]
        · rw [hok, show i + 1 + rs.length = i + rs.length + 1 by omega]
      · -- one of the calls raises: nothing after it is reached
        have hstop : ∀ k, d.reaches (i + 1 + k) = false := by
          intro k
          by_contra hk
          exact hnext (reaches_of_le (by simpa using hk) (Nat.le_add_right ..))
        have hlast : d.reaches (i + rs.length + 1) = false := by
          rw [show i + rs.length + 1 = i + 1 + rs.length by omega]
          exact hstop _
        have hlate : ∀ k, d.stores (i + 1 + k) = false := by
          intro k
          simp only [Delivery.stores, hstop k, Bool.false_and]
        simp only [hstop, hlate, hlast, Bool.false_eq_true, false_and, and_false, exists_false,
          or_false, iff_false, Bool.not_eq_true]
        rw [reaches_succ, not_and, not_and] at hnext
        -- the Kafka call raises, or already the Redis call does; either may have taken effect
        by_cases hx : (d.xadd i).succeeded = true
        · have hs : (d.send i).succeeded = false := by simpa using hnext hreach hx
          have hxd := CallOutcome.done_of_succeeded hx
          cases hsd : (d.send i).done with
          | true =>
              simp [publish_all, publish_to_redis, publish_to_kafka, hx, hs, hxd, hsd, hreach,
                Delivery.stores]
          | false =>
              simp [publish_all, publish_to_redis, publish_to_kafka, hx, hs, hxd, hsd, hreach,
                Delivery.stores]
        · have hx : (d.xadd i).succeeded = false := by simpa using hx
          cases hxd : (d.xadd i).done with
          | true => simp [publish_all, publish_to_redis, hx, hxd, hreach, Delivery.stores]
          | false => simp [publish_all, publish_to_redis, hx, hxd, hreach, Delivery.stores]

end

/-! ## What the ingestor has stored and acknowledged

The state after any number of messages, in terms of the messages. The results on
acknowledgements are read off this and never look at the code again. -/

/-- The stores and acknowledgements after the messages `ds`, read off their calls alone. -/
structure Ledger (host : Host) (ds : List Delivery) (s : Ingestor) : Prop where
  delivered_eq : s.delivered = ds
  mem_redis : ∀ e, e ∈ s.redis ↔ ∃ d rs, ds[e.message]? = some d ∧ d.records host = some rs ∧
    rs[e.index]? = some e.record ∧ d.reaches e.index = true ∧ (d.xadd e.index).done = true
  mem_kafka : ∀ e, e ∈ s.kafka ↔ ∃ d rs, ds[e.message]? = some d ∧ d.records host = some rs ∧
    rs[e.index]? = some e.record ∧ d.stores e.index = true
  mem_feedback : ∀ f, f ∈ s.feedback ↔ ∃ n d, ds[n]? = some d ∧ d.Sends host ∧
    f = ⟨d.data_start, n + 1⟩

section

variable {host : Host} {ds : List Delivery} {s : Ingestor} {d : Delivery}

@[simp] theorem acknowledge_delivered : (acknowledge s d).1.delivered = s.delivered := by
  unfold acknowledge
  split <;> rfl

@[simp] theorem acknowledge_redis : (acknowledge s d).1.redis = s.redis := by
  unfold acknowledge
  split <;> rfl

@[simp] theorem acknowledge_kafka : (acknowledge s d).1.kafka = s.kafka := by
  unfold acknowledge
  split <;> rfl

/-- An acknowledgement carries the number of messages delivered by then. Without it two
acknowledgements of one position could not be told apart, and which messages each of them speaks
for would be lost. -/
theorem mem_acknowledge_feedback {f : Feedback} : f ∈ (acknowledge s d).1.feedback ↔
    f ∈ s.feedback ∨ (d.send_feedback.done = true ∧ f = ⟨d.data_start, s.delivered.length⟩) := by
  unfold acknowledge
  cases d.send_feedback.done with
  | true => simp
  | false => simp

/-- What `process_message` leaves behind, in one place: the message is delivered, its
records whose call took effect are stored under its number, and its feedback is sent
exactly when no call before it raised. -/
theorem process_message_spec (host : Host) (s : Ingestor) (d : Delivery) :
    (process_message host s d).1.delivered = s.delivered ++ [d] ∧
    (∀ e, e ∈ (process_message host s d).1.redis ↔ e ∈ s.redis ∨
      (e.message = s.delivered.length ∧ ∃ rs, d.records host = some rs ∧
        rs[e.index]? = some e.record ∧ d.reaches e.index = true ∧
        (d.xadd e.index).done = true)) ∧
    (∀ e, e ∈ (process_message host s d).1.kafka ↔ e ∈ s.kafka ∨
      (e.message = s.delivered.length ∧ ∃ rs, d.records host = some rs ∧
        rs[e.index]? = some e.record ∧ d.stores e.index = true)) ∧
    (∀ f, f ∈ (process_message host s d).1.feedback ↔ f ∈ s.feedback ∨
      (d.Sends host ∧ f = ⟨d.data_start, s.delivered.length + 1⟩)) := by
  unfold process_message
  cases hrec : d.records host with
  | none => simp [Delivery.Sends, hrec]
  | some rs =>
      obtain ⟨hdel, hfb, hredis, hkafka, hok⟩ := @publish_all_spec host
        { s with delivered := s.delivered ++ [d] } d s.delivered.length 0 rs rfl
      simp only [Nat.zero_add] at hredis hkafka hok
      -- an entry of this message is told by its number and index
      have hpick : ∀ (e : Entry) (Q : Nat → Prop), (∃ k r, rs[k]? = some r ∧
          e = ⟨s.delivered.length, k, r⟩ ∧ Q k) ↔
          e.message = s.delivered.length ∧ ∃ rs', some rs = some rs' ∧
            rs'[e.index]? = some e.record ∧ Q e.index := by
        intro e Q
        constructor
        · rintro ⟨k, r, hk, rfl, hQ⟩
          exact ⟨rfl, rs, rfl, hk, hQ⟩
        · rintro ⟨hm, rs', hrs', hk, hQ⟩
          cases hrs'
          exact ⟨e.index, e.record, hk, by rw [← hm], hQ⟩
      dsimp only
      generalize publish_all host s.delivered.length d 0 rs
        { s with delivered := s.delivered ++ [d] } = out at hdel hfb hredis hkafka hok ⊢
      obtain ⟨s', ok⟩ := out
      dsimp only at hdel hfb hredis hkafka hok ⊢
      have hredis' : ∀ e, e ∈ s'.redis ↔ e ∈ s.redis ∨ (e.message = s.delivered.length ∧
          ∃ rs', some rs = some rs' ∧ rs'[e.index]? = some e.record ∧
            d.reaches e.index = true ∧ (d.xadd e.index).done = true) := fun e => by
        rw [hredis, hpick e fun k => d.reaches k = true ∧ (d.xadd k).done = true]
      have hkafka' : ∀ e, e ∈ s'.kafka ↔ e ∈ s.kafka ∨ (e.message = s.delivered.length ∧
          ∃ rs', some rs = some rs' ∧ rs'[e.index]? = some e.record ∧
            d.stores e.index = true) := fun e => by
        rw [hkafka, hpick e fun k => d.stores k = true]
      cases ok with
      | false =>
          -- a call raised: no acknowledgement
          have hnot : ¬ d.Sends host := by
            rintro ⟨rs', hrs', hreach, _⟩
            rw [hrec] at hrs'
            cases hrs'
            exact absurd (hok.mpr hreach) (by decide)
          refine ⟨hdel, hredis', hkafka', fun f => ?_⟩
          rw [hfb]
          simp [hnot]
      | true =>
          have hreach := hok.mp rfl
          -- the loop ran to its end, so the feedback call alone decides
          have hsends : d.Sends host ↔ d.send_feedback.done = true := by
            constructor
            · rintro ⟨_, _, _, hdone⟩
              exact hdone
            · exact fun hdone => ⟨rs, hrec, hreach, hdone⟩
          dsimp only
          rw [acknowledge_delivered, acknowledge_redis, acknowledge_kafka]
          refine ⟨hdel, hredis', hkafka', fun f => ?_⟩
          rw [mem_acknowledge_feedback, hsends, hfb, hdel, List.length_append,
            List.length_singleton]

/-- **One message keeps the ledger.** -/
theorem Ledger.process_message (h : Ledger host ds s) :
    Ledger host (ds ++ [d]) (process_message host s d).1 := by
  obtain ⟨hdel, hredis, hkafka, hfb⟩ := process_message_spec host s d
  obtain ⟨hds, hr, hk, hf⟩ := h
  subst hds
  refine ⟨hdel, fun e => ?_, fun e => ?_, fun f => ?_⟩
  · rw [hredis, hr]
    simp only [exists_and_left, exists_getElem?_snoc_iff]
  · rw [hkafka, hk]
    simp only [exists_and_left, exists_getElem?_snoc_iff]
  · rw [hfb, hf]
    simp only [exists_getElem?_snoc_iff]
    constructor
    · rintro (⟨n, hn⟩ | hnew)
      · exact ⟨n, Or.inl hn⟩
      · exact ⟨_, Or.inr ⟨rfl, hnew⟩⟩
    · rintro ⟨n, hn | ⟨rfl, hnew⟩⟩
      · exact Or.inl ⟨n, hn⟩
      · exact Or.inr hnew

/-- The ledger holds after any sequence of messages. -/
theorem ledger_consume_stream (host : Host) (ds : List Delivery) :
    Ledger host ds (consume_stream host ds) := by
  -- message by message, the last one appended
  induction ds using List.reverseRecOn with
  | nil =>
      refine ⟨rfl, fun e => ?_, fun e => ?_, fun f => ?_⟩
      · simp [consume_stream, Ingestor.start]
      · simp [consume_stream, Ingestor.start]
      · simp [consume_stream, Ingestor.start]
  | append_singleton ds d ih =>
      rw [consume_stream, List.foldl_append]
      exact ih.process_message

/-! ## What Redis still has

The model keeps all that was ever added and how much of it is gone, since Redis trims
approximately: what it has left is the last part, and never less than the limit. -/

/-- What trimming leaves: the stream is the last part of what was added to it, and if anything
is gone from it, there are `REDIS_STREAM_MAXLEN` entries at least. -/
def Ingestor.Retains (host : Host) (s : Ingestor) : Prop :=
  ∃ gone, s.redis = gone ++ s.stream ∧ (gone = [] ∨ host.redis_stream_maxlen ≤ s.stream.length)

/-- No more is trimmed than what exceeds `REDIS_STREAM_MAXLEN`. -/
def Ingestor.WithinMaxlen (host : Host) (s : Ingestor) : Prop :=
  s.trimmed ≤ s.redis.length - host.redis_stream_maxlen

/-- From the bound on what was trimmed to what is left, which is what a reader of the stream
sees. -/
theorem Ingestor.WithinMaxlen.retains (h : s.WithinMaxlen host) : s.Retains host := by
  refine ⟨s.redis.take s.trimmed, (List.take_append_drop ..).symm, ?_⟩
  rw [WithinMaxlen] at h
  rcases Nat.eq_zero_or_pos s.trimmed with hzero | hpos
  · exact Or.inl (by rw [hzero]; rfl)
  · right
    rw [stream, List.length_drop]
    omega

/-- `XADD` is the only call that trims, and it adds one entry before it does. -/
theorem withinMaxlen_publish_to_redis (h : s.WithinMaxlen host) (e : Entry) (evict : Nat)
    (o : CallOutcome) : (publish_to_redis host s e evict o).1.WithinMaxlen host := by
  unfold publish_to_redis
  split
  · simp only [Ingestor.WithinMaxlen, Ingestor.xadd, List.length_append, List.length_singleton]
    exact Nat.min_le_right _ _
  · exact h

/-- A write to Kafka leaves the stream as it is. -/
theorem withinMaxlen_publish_to_kafka (h : s.WithinMaxlen host) (e : Entry) (o : CallOutcome) :
    (publish_to_kafka s e o).1.WithinMaxlen host := by
  unfold publish_to_kafka
  split <;> exact h

/-- So a whole message does, record by record. The bound does not depend on which of the calls
raise. -/
theorem withinMaxlen_publish_all (n i : Nat) (rs : List ChangeRecord) (h : s.WithinMaxlen host) :
    (publish_all host n d i rs s).1.WithinMaxlen host := by
  induction rs generalizing i s with
  | nil => exact h
  | cons r rs ih =>
      have hredis := withinMaxlen_publish_to_redis h ⟨n, i, r⟩ (d.evict i) (d.xadd i)
      simp only [publish_all]
      split
      · rename_i s' heq
        rw [heq] at hredis
        exact hredis
      · rename_i s' heq
        rw [heq] at hredis
        have hkafka := withinMaxlen_publish_to_kafka hredis ⟨n, i, r⟩ (d.send i)
        split
        · rename_i s'' heq'
          rw [heq'] at hkafka
          exact hkafka
        · rename_i s'' heq'
          rw [heq'] at hkafka
          exact ih (i + 1) hkafka

/-- A message trims no more than that. -/
theorem Ingestor.WithinMaxlen.process_message (h : s.WithinMaxlen host) :
    (process_message host s d).1.WithinMaxlen host := by
  unfold Ingest.process_message
  cases d.records host with
  | none => exact h
  | some rs =>
      have hall := withinMaxlen_publish_all (d := d) s.delivered.length 0 rs
        (s := { s with delivered := s.delivered ++ [d] }) h
      dsimp only
      split
      · rename_i s' heq
        rw [heq] at hall
        exact hall
      · rename_i s' heq
        rw [heq] at hall
        unfold acknowledge
        split <;> exact hall

/-! ## Acknowledgement and publication

An acknowledgement carries the position of its own message and covers all positions before it,
those of messages that failed among them. That is the whole of the condition. -/

/-- The `i`-th record of message number `n` has got into both stores. -/
def Ingestor.Published (s : Ingestor) (n i : Nat) (r : ChangeRecord) : Prop :=
  ⟨n, i, r⟩ ∈ s.redis ∧ ⟨n, i, r⟩ ∈ s.kafka

instance (s : Ingestor) (n i : Nat) (r : ChangeRecord) : Decidable (s.Published n i r) :=
  inferInstanceAs (Decidable (_ ∧ _))

/-- Whenever feedback was sent, every record of every message delivered by then, its
position at or before the one acknowledged, was in both stores. (A record is stored while
its message is processed or never, so it does not matter that `Published` looks at the
stores of now.) -/
def Ingestor.NeverAhead (host : Host) (s : Ingestor) : Prop :=
  ∀ f ∈ s.feedback, ∀ n < f.after, ∀ d, s.delivered[n]? = some d → d.data_start ≤ f.flush_lsn →
    ∀ rs, d.records host = some rs → ∀ i r, rs[i]? = some r → s.Published n i r

/-- **When acknowledgement does not run ahead.** Over messages whose positions do not
decrease, no acknowledgement covers an unpublished record exactly when no message that
loses a record is followed by one whose feedback is sent. -/
theorem feedback_never_ahead_iff (host : Host) (ds : List Delivery)
    (hsorted : ds.Pairwise fun a b => a.data_start ≤ b.data_start) :
    (consume_stream host ds).NeverAhead host ↔
      ∀ (k l : Nat) (dk dl : Delivery), k < l → ds[k]? = some dk → ds[l]? = some dl →
        dk.Loses host → ¬ dl.Sends host := by
  obtain ⟨hdel, hredis, hkafka, hfb⟩ := ledger_consume_stream host ds
  constructor
  · intro hahead k l dk dl hkl hk hl ⟨rs, hrs, i, hi, hlost⟩ hsends
    have hf : ⟨dl.data_start, l + 1⟩ ∈ (consume_stream host ds).feedback :=
      (hfb _).mpr ⟨l, dl, hl, hsends, rfl⟩
    have hle : dk.data_start ≤ dl.data_start := by
      obtain ⟨hk', rfl⟩ := List.getElem?_eq_some_iff.mp hk
      obtain ⟨hl', rfl⟩ := List.getElem?_eq_some_iff.mp hl
      exact List.pairwise_iff_getElem.mp hsorted k l hk' hl' hkl
    have hpub := hahead _ hf k (by dsimp only; omega) dk (by rw [hdel]; exact hk) hle rs hrs i
      rs[i] (List.getElem?_eq_getElem hi)
    -- the later acknowledgement says that the lost record is in Kafka
    obtain ⟨d', rs', hd', _, _, hstored⟩ := (hkafka _).mp hpub.2
    dsimp only at hd' hstored
    rw [hk] at hd'
    cases hd'
    rw [hlost] at hstored
    cases hstored
  · intro hcond f hf k hk dk hdk _ rs hrs i r hr
    obtain ⟨l, dl, hl, hsends, rfl⟩ := (hfb f).mp hf
    rw [hdel] at hdk
    have hi : i < rs.length := (List.getElem?_eq_some_iff.mp hr).1
    have hstored : dk.stores i = true := by
      rcases Nat.eq_or_lt_of_le (Nat.le_of_lt_succ hk) with rfl | hlt
      · -- the message that sends the feedback
        rw [hl] at hdk
        cases hdk
        obtain ⟨rs', hrs', hreach, _⟩ := hsends
        rw [hrs] at hrs'
        cases hrs'
        exact stores_of_reaches hreach hi
      · by_contra hlost
        exact hcond k l dk dl hlt hdk hl ⟨rs, hrs, i, hi, by simpa using hlost⟩ hsends
    have hparts := hstored
    simp only [Delivery.stores, Bool.and_eq_true] at hparts
    exact ⟨(hredis _).mpr ⟨dk, rs, hdk, hrs, hr, hparts.1.1,
      CallOutcome.done_of_succeeded hparts.1.2⟩, (hkafka _).mpr ⟨dk, rs, hdk, hrs, hr, hstored⟩⟩

end

/-- A message inserting the row with key `id`, each of whose calls ends as given. -/
def insertMessage (data_start : Nat) (id : Int) (xadd send feedback : CallOutcome) : Delivery :=
  { data_start := data_start,
    payload := some (.obj [("change", .arr [.obj [("kind", .str "I"), ("schema", .str "public"),
      ("table", .str "t"), ("columns", .arr [.obj [("name", .str "id"), ("value", .int id)]])]])]),
    now_ms := 0,
    xadd := fun _ => xadd,
    send := fun _ => send,
    send_feedback := feedback }

/-- The record of `insertMessage`. -/
def insertRecord (lsn id : String) : ChangeRecord :=
  { lsn := lsn, commit_time := 0, table := "public.t", operation := "INSERT",
    old := Dict.empty, new := Dict.empty.set "id" id }

/-- How the calls for a message end does not matter for what it contains. -/
theorem records_insertMessage_100 (xadd send feedback : CallOutcome) :
    (insertMessage 100 7 xadd send feedback).records bareHost = some [insertRecord "100" "7"] := by
  have hcalls : (insertMessage 100 7 xadd send feedback).records bareHost
      = (insertMessage 100 7 .ok .ok .ok).records bareHost := rfl
  rw [hcalls]
  decide

/-- The same of the message after it. -/
theorem records_insertMessage_101 (xadd send feedback : CallOutcome) :
    (insertMessage 101 8 xadd send feedback).records bareHost = some [insertRecord "101" "8"] := by
  have hcalls : (insertMessage 101 8 xadd send feedback).records bareHost
      = (insertMessage 101 8 .ok .ok .ok).records bareHost := rfl
  rw [hcalls]
  decide

/-- The feedback of the first message is lost, the Kafka write of the second raises though
the record was written, and the Redis write of the last fails. -/
def shakyMessages : List Delivery :=
  [insertMessage 100 7 .ok .ok (.raised false), insertMessage 101 8 .ok (.raised true) .ok,
    insertMessage 102 9 (.raised false) .ok .ok]

/-- The one record that is lost is that of the last message, behind which nothing is
acknowledged. -/
theorem feedback_never_ahead_shaky :
    (consume_stream bareHost shakyMessages).NeverAhead bareHost := by
  refine (feedback_never_ahead_iff bareHost _ (by decide)).mpr ?_
  rintro k l dk dl hkl hk hl ⟨rs, hrs, i, hi, hlost⟩
  obtain ⟨hlen, rfl⟩ := List.getElem?_eq_some_iff.mp hl
  have hk01 : k = 0 ∨ k = 1 := by
    simp only [shakyMessages, List.length_cons, List.length_nil] at hlen
    omega
  rcases hk01 with rfl | rfl
  · cases hk
    rw [records_insertMessage_100] at hrs
    cases hrs
    obtain rfl : i = 0 := by simpa using hi
    exact absurd hlost (by decide)
  · cases hk
    rw [records_insertMessage_101] at hrs
    cases hrs
    obtain rfl : i = 0 := by simpa using hi
    exact absurd hlost (by decide)

/-- The Kafka write of the first message times out, the second message succeeds and
acknowledges position 101: the record at position 100 is in no Kafka partition, and
PostgreSQL does not send it again. -/
theorem feedback_runs_ahead :
    ¬ (consume_stream bareHost
      [insertMessage 100 7 .ok (.raised false) .ok,
        insertMessage 101 8 .ok .ok .ok]).NeverAhead bareHost := by
  intro h
  have hpub := h ⟨101, 2⟩ (by decide) 0 (by decide) _ rfl (by decide) _
    (records_insertMessage_100 ..) 0 _ rfl
  revert hpub
  decide

end WalStream.Ingest

/-
The ingestor and its replication slot, across connections.

PostgreSQL keeps the WAL from the slot's `confirmed_flush_lsn` on: a new connection is sent
every message of the transactions that commit at or after it, from the first on. The position
moves to what the cursor has reported, and the cursor reports `data_start` of the messages
`process_message` acknowledged. So a message that failed is sent again after the next
connection, unless meanwhile a message beyond the end of its transaction was acknowledged:
`consume_stream` goes on after a failure, and then the records are in neither store and will
never be.
-/
import WalStream.Ingest.Process
import WalStream.Lib.Potential

set_option autoImplicit false

namespace WalStream.Ingest

open Lib

/-! ## The slot

The position of a slot is with the database, and what the ingestor has reported is with its
connection. A crash loses the second. What is let go by the first is never sent again, so these
two positions decide which messages can still be lost. -/

/-- A message of the WAL: its position, where the commit record of its transaction begins,
and the decoded payload. -/
structure WalMessage where
  data_start : Nat
  commit_lsn : Nat
  payload : Option Json

/-- What the calls for a message meet, and the clock. -/
structure Calls where
  now_ms : Int
  xadd : Nat → CallOutcome
  send : Nat → CallOutcome
  send_feedback : CallOutcome
  evict : Nat → Nat := fun _ => 0

/-- Calls that all succeed, whatever Redis evicts. -/
def Calls.succeeding (now_ms : Int) (evict : Nat → Nat := fun _ => 0) : Calls :=
  { now_ms := now_ms,
    xadd := fun _ => .ok,
    send := fun _ => .ok,
    send_feedback := .ok,
    evict := evict }

/-- The message as the ingestor gets it. -/
def WalMessage.delivery (m : WalMessage) (c : Calls) : Delivery :=
  { data_start := m.data_start,
    payload := m.payload,
    now_ms := c.now_ms,
    xadd := c.xadd,
    send := c.send,
    send_feedback := c.send_feedback,
    evict := c.evict }

/-- The database, the connection and the ingestor. -/
structure Slot where
  wal : List WalMessage
  confirmed_flush_lsn : Nat
  /-- What the cursor of this connection reports; it never goes back. -/
  flush_lsn : Nat
  /-- The number of the next message on the connection. -/
  next : Option Nat
  ingestor : Ingestor
  /-- The number in the WAL of every message delivered; nothing reads it. -/
  sources : List Nat
  /-- Those of this connection that failed; nothing reads it. -/
  incomplete : List Nat

/-- A slot that has just been created. -/
def Slot.initial : Slot :=
  { wal := [],
    confirmed_flush_lsn := 0,
    flush_lsn := 0,
    next := none,
    ingestor := .start,
    sources := [],
    incomplete := [] }

inductive SlotAction
  /-- The server decodes one more message. -/
  | write (m : WalMessage)
  /-- `start`: the slot is created or found, and the replication begins. -/
  | start
  /-- The next message, and what becomes of it. -/
  | deliver (c : Calls)
  /-- A status update of the cursor reaches the server. -/
  | confirm
  /-- The connection or the process ends. -/
  | lose

/-- Every record of the message gets into both stores. -/
def Delivery.complete (host : Host) (d : Delivery) : Bool :=
  match d.records host with
  | none => false
  | some rs => (List.range rs.length).all d.stores

/-- The first message the server sends on a connection. -/
def Slot.restart (s : Slot) : Nat :=
  (s.wal.takeWhile fun m => m.commit_lsn < s.confirmed_flush_lsn).length

/-- `process_message` on message number `k` of the WAL. -/
def Slot.deliver (host : Host) (s : Slot) (k : Nat) (m : WalMessage) (c : Calls) : Slot :=
  let ingestor := (process_message host s.ingestor (m.delivery c)).1
  { s with
    flush_lsn :=
      if ⟨m.data_start, ingestor.delivered.length⟩ ∈ ingestor.feedback then
        max s.flush_lsn m.data_start
      else s.flush_lsn,
    next := some (k + 1),
    ingestor := ingestor,
    sources := s.sources ++ [k],
    incomplete := if (m.delivery c).complete host then s.incomplete else k :: s.incomplete }

def Slot.step (host : Host) (s : Slot) : SlotAction → Option Slot
  | .write m =>
      -- decoding is in commit order, and a message lies within its transaction
      if ∀ m' ∈ s.wal, m'.data_start ≤ m.commit_lsn ∧ m'.commit_lsn ≤ m.commit_lsn then
        some { s with wal := s.wal ++ [m] }
      else none
  | .start =>
      match s.next with
      | none => some { s with flush_lsn := 0, next := some s.restart, incomplete := [] }
      | some _ => none
  | .deliver c =>
      match s.next with
      | none => none
      | some k => s.wal[k]?.map fun m => s.deliver host k m c
  | .confirm => some { s with confirmed_flush_lsn := max s.confirmed_flush_lsn s.flush_lsn }
  | .lose => some { s with next := none }

/-! ## What has been published

A message is stored when one delivery of it has got every record into both stores: a record that
one delivery put into Redis and another into Kafka does not count, as the next message of the
first connection may have come between. -/

/-- Every record of the message has got into both stores, all by one delivery of it. -/
def Slot.Stored (host : Host) (s : Slot) (k : Nat) : Prop :=
  ∃ n d rs, s.sources[n]? = some k ∧ s.ingestor.delivered[n]? = some d ∧
    d.records host = some rs ∧ ∀ i r, rs[i]? = some r → s.ingestor.Published n i r

/-- Nothing the slot has let go, or will on the next status update, has failed to get into
both stores. -/
def Slot.NothingLost (host : Host) (s : Slot) : Prop :=
  ∀ k m, s.wal[k]? = some m → m.commit_lsn < max s.confirmed_flush_lsn s.flush_lsn →
    s.Stored host k

/-- No acknowledgement passes the end of a transaction of which a message has failed on this
connection and is in neither store. -/
def Slot.NoOvertaking (host : Host) (s : Slot) : SlotAction → Prop
  | .deliver c => ∀ k m, s.next = some k → s.wal[k]? = some m → (m.delivery c).Sends host →
      ∀ j ∈ s.incomplete, ¬ s.Stored host j → ∀ m', s.wal[j]? = some m' →
        m.data_start ≤ m'.commit_lsn
  | _ => True

/-- The stores and the deliveries are those of messages of the WAL. -/
structure Slot.Traced (host : Host) (s : Slot) : Prop where
  ledger : Ledger host s.ingestor.delivered s.ingestor
  sources : s.sources.length = s.ingestor.delivered.length
  from_wal : ∀ (n k : Nat) (d : Delivery), s.sources[n]? = some k → s.ingestor.delivered[n]? = some d →
    ∃ (m : WalMessage) (c : Calls), s.wal[k]? = some m ∧ d = m.delivery c

/-- What holds of the slot as long as nothing is lost. -/
structure Slot.Inv (host : Host) (s : Slot) : Prop extends Slot.Traced host s where
  ordered : ∀ (i j : Nat) (m m' : WalMessage), i < j → s.wal[i]? = some m → s.wal[j]? = some m' →
    m.data_start ≤ m'.commit_lsn ∧ m.commit_lsn ≤ m'.commit_lsn
  reported : s.flush_lsn = 0 ∨ ∃ m ∈ s.wal, m.data_start = s.flush_lsn
  confirmed : s.confirmed_flush_lsn = 0 ∨ ∃ m ∈ s.wal, m.data_start = s.confirmed_flush_lsn
  passed : ∀ k, s.next = some k → k ≤ s.wal.length ∧ (∀ j ∈ s.incomplete, j < k) ∧
    ∀ j < k, s.Stored host j ∨ j ∈ s.incomplete

section

variable {host : Host} {s t : Slot} {a : SlotAction} {m : WalMessage} {c : Calls} {k : Nat}

/-- A delivery that is complete reaches its last record; one that sends its feedback is
complete. -/
theorem Delivery.complete_iff {d : Delivery} : d.complete host = true ↔
    ∃ rs, d.records host = some rs ∧ ∀ i < rs.length, d.stores i = true := by
  unfold Delivery.complete
  cases d.records host with
  | none => simp
  | some rs => simp [List.all_eq_true]

theorem Delivery.complete_of_sends {d : Delivery} (h : d.Sends host) : d.complete host = true := by
  obtain ⟨rs, hrs, hreach, -⟩ := h
  exact Delivery.complete_iff.mpr ⟨rs, hrs, fun i hi => stores_of_reaches hreach hi⟩

/-- The number of a message's feedback tells it from every earlier one. -/
theorem mem_feedback_iff (h : Ledger host s.ingestor.delivered s.ingestor) (d : Delivery) :
    ⟨d.data_start, (process_message host s.ingestor d).1.delivered.length⟩ ∈
        (process_message host s.ingestor d).1.feedback ↔ d.Sends host := by
  obtain ⟨hdel, -, -, hfb⟩ := process_message_spec host s.ingestor d
  rw [hfb, hdel, List.length_append, List.length_singleton]
  constructor
  · rintro (hold | ⟨hsends, -⟩)
    · obtain ⟨n, d', hn, -, heq⟩ := (h.mem_feedback _).mp hold
      have hlt := (List.getElem?_eq_some_iff.mp hn).1
      simp only [Feedback.mk.injEq] at heq
      omega
    · exact hsends
  · exact fun hsends => Or.inr ⟨hsends, rfl⟩

/-- What is stored stays stored. -/
theorem Slot.Stored.deliver {j : Nat} (h : s.Stored host j) : (s.deliver host k m c).Stored host j := by
  obtain ⟨n, d, rs, hn, hd, hrs, hpub⟩ := h
  obtain ⟨hdel, hredis, hkafka, -⟩ := process_message_spec host s.ingestor (m.delivery c)
  refine ⟨n, d, rs, ?_, ?_, hrs, fun i r hr => ?_⟩
  · exact (List.getElem?_append_left (List.getElem?_eq_some_iff.mp hn).1).trans hn
  · simp only [Slot.deliver, hdel]
    exact (List.getElem?_append_left (List.getElem?_eq_some_iff.mp hd).1).trans hd
  · exact ⟨(hredis _).mpr (Or.inl (hpub i r hr).1), (hkafka _).mpr (Or.inl (hpub i r hr).2)⟩

/-- A complete delivery stores its message. -/
theorem Slot.stored_deliver (h : s.Traced host) (hcomplete : (m.delivery c).complete host = true) :
    (s.deliver host k m c).Stored host k := by
  obtain ⟨rs, hrs, hstores⟩ := Delivery.complete_iff.mp hcomplete
  obtain ⟨hdel, hredis, hkafka, -⟩ := process_message_spec host s.ingestor (m.delivery c)
  refine ⟨s.ingestor.delivered.length, m.delivery c, rs, ?_, ?_, hrs, fun i r hr => ?_⟩
  · simp only [Slot.deliver]
    rw [← h.sources, List.getElem?_append_right (Nat.le_refl _), Nat.sub_self]
    rfl
  · simp only [Slot.deliver, hdel]
    rw [List.getElem?_append_right (Nat.le_refl _), Nat.sub_self]
    rfl
  · have hi := hstores i (List.getElem?_eq_some_iff.mp hr).1
    have hparts := hi
    simp only [Delivery.stores, Bool.and_eq_true] at hparts
    exact ⟨(hredis _).mpr (Or.inr ⟨rfl, rs, hrs, hr, hparts.1.1,
      CallOutcome.done_of_succeeded hparts.1.2⟩), (hkafka _).mpr (Or.inr ⟨rfl, rs, hrs, hr, hi⟩)⟩

/-! ## One step

The invariant is a statement on positions. A delivery can only raise the reported one when the
message at it has failed nowhere, or overtakes; everything else leaves the positions or lowers
the risk. -/

/-- The position a new connection begins at: everything before it has been let go. -/
theorem Slot.restart_spec (s : Slot) : s.restart ≤ s.wal.length ∧
    ∀ j < s.restart, ∀ m, s.wal[j]? = some m → m.commit_lsn < s.confirmed_flush_lsn := by
  refine ⟨(List.takeWhile_sublist _).length_le, fun j hj m hm => ?_⟩
  have hget : (s.wal.takeWhile fun m => m.commit_lsn < s.confirmed_flush_lsn)[j]? = some m := by
    rw [← hm, ← List.getElem?_append_left hj, List.takeWhile_append_dropWhile]
  have hall := List.all_takeWhile (p := fun m => decide (m.commit_lsn < s.confirmed_flush_lsn))
    (l := s.wal)
  simpa using List.all_eq_true.mp hall m (List.mem_of_getElem? hget)

theorem Slot.Traced.deliver (h : s.Traced host) (hm : s.wal[k]? = some m) :
    (s.deliver host k m c).Traced host := by
  obtain ⟨hdel, -, -, -⟩ := process_message_spec host s.ingestor (m.delivery c)
  have hledger : Ledger host (s.ingestor.delivered ++ [m.delivery c])
      (process_message host s.ingestor (m.delivery c)).1 := h.ledger.process_message
  refine ⟨?_, ?_, fun n k' d hn hd => ?_⟩
  · simp only [Slot.deliver, hdel]
    exact hledger
  · simp only [Slot.deliver, hdel, List.length_append, h.sources]
    rfl
  · simp only [Slot.deliver, hdel] at hn hd
    rcases getElem?_snoc_iff.mp hn with hn | ⟨rfl, rfl⟩
    · rcases getElem?_snoc_iff.mp hd with hd | ⟨rfl, rfl⟩
      · exact h.from_wal n k' d hn hd
      · have hlt := (List.getElem?_eq_some_iff.mp hn).1
        rw [h.sources] at hlt
        omega
    · rcases getElem?_snoc_iff.mp hd with hd | ⟨-, rfl⟩
      · have hlt := (List.getElem?_eq_some_iff.mp hd).1
        rw [h.sources] at hlt
        omega
      · exact ⟨m, c, hm, rfl⟩

/-- One message of the WAL is delivered. -/
theorem Slot.Inv.deliver (h : s.Inv host) (hnext : s.next = some k) (hm : s.wal[k]? = some m) :
    (s.deliver host k m c).Inv host := by
  refine ⟨h.toTraced.deliver hm, h.ordered, ?_, h.confirmed, fun k' hk' => ?_⟩
  · simp only [Slot.deliver]
    split
    · rcases Nat.le_total s.flush_lsn m.data_start with hle | hle
      · rw [Nat.max_eq_right hle]
        exact Or.inr ⟨m, List.mem_of_getElem? hm, rfl⟩
      · rw [Nat.max_eq_left hle]
        exact h.reported
    · exact h.reported
  · simp only [Slot.deliver, Option.some.injEq] at hk'
    subst hk'
    obtain ⟨-, hincomplete, hpassed⟩ := h.passed k hnext
    refine ⟨(List.getElem?_eq_some_iff.mp hm).1, fun j hj => ?_, fun j hj => ?_⟩
    · simp only [Slot.deliver] at hj
      split at hj
      · exact Nat.lt_succ_of_lt (hincomplete j hj)
      · rcases List.mem_cons.mp hj with rfl | hj
        · exact Nat.lt_succ_self _
        · exact Nat.lt_succ_of_lt (hincomplete j hj)
    · -- a message sent before, or this one: stored if the delivery is complete, failed if it is
      -- not
      rcases Nat.lt_succ_iff_lt_or_eq.mp hj with hj | rfl
      · rcases hpassed j hj with hstored | hin
        · exact Or.inl hstored.deliver
        · right
          simp only [Slot.deliver]
          split
          · exact hin
          · exact List.mem_cons_of_mem _ hin
      · cases hcomplete : (m.delivery c).complete host with
        | true => exact Or.inl (Slot.stored_deliver h.toTraced hcomplete)
        | false =>
            right
            simp only [Slot.deliver, hcomplete, Bool.false_eq_true, if_false]
            exact List.mem_cons_self ..

/-- A delivery stores no message but its own. -/
theorem Slot.Stored.of_deliver {j : Nat} (h : s.Traced host) (hj : j ≠ k)
    (hstored : (s.deliver host k m c).Stored host j) : s.Stored host j := by
  obtain ⟨n, d, rs, hn, hd, hrs, hpub⟩ := hstored
  obtain ⟨hdel, hredis, hkafka, -⟩ := process_message_spec host s.ingestor (m.delivery c)
  simp only [Slot.deliver, hdel] at hn hd
  rcases getElem?_snoc_iff.mp hn with hn | ⟨-, rfl⟩
  · have hlt := (List.getElem?_eq_some_iff.mp hn).1
    rw [h.sources] at hlt
    rcases getElem?_snoc_iff.mp hd with hd | ⟨rfl, -⟩
    · refine ⟨n, d, rs, hn, hd, hrs, fun i r hr => ?_⟩
      obtain ⟨hr₁, hr₂⟩ := hpub i r hr
      -- the entries of this delivery have another number
      have hother : ∀ {Q : Prop}, ¬ (n = s.ingestor.delivered.length ∧ Q) := fun hQ => by omega
      exact ⟨((hredis _).mp hr₁).resolve_right hother, ((hkafka _).mp hr₂).resolve_right hother⟩
    · omega
  · exact absurd rfl hj

/-- The position the cursor reports after a delivery. -/
theorem Slot.deliver_flush_lsn (h : s.Traced host) :
    ((m.delivery c).Sends host → (s.deliver host k m c).flush_lsn = max s.flush_lsn m.data_start) ∧
    (¬ (m.delivery c).Sends host → (s.deliver host k m c).flush_lsn = s.flush_lsn) := by
  have hiff := mem_feedback_iff h.ledger (m.delivery c)
  constructor
  · intro hsends
    simp only [Slot.deliver]
    exact if_pos (hiff.mpr hsends)
  · intro hnot
    simp only [Slot.deliver]
    exact if_neg fun hmem => hnot (hiff.mp hmem)

/-- Where nothing happens to the stores and the deliveries, the stored messages are the same. -/
theorem Slot.stored_congr (hingestor : t.ingestor = s.ingestor) (hsources : t.sources = s.sources)
    (k : Nat) : t.Stored host k ↔ s.Stored host k := by
  unfold Slot.Stored
  rw [hingestor, hsources]

/-- **What a step of the system can be.** -/
inductive Slot.Took (host : Host) (s : Slot) : SlotAction → Slot → Prop
  | write (m : WalMessage)
      (hm : ∀ m' ∈ s.wal, m'.data_start ≤ m.commit_lsn ∧ m'.commit_lsn ≤ m.commit_lsn) :
      Took host s (.write m) { s with wal := s.wal ++ [m] }
  | start (hnext : s.next = none) :
      Took host s .start { s with flush_lsn := 0, next := some s.restart, incomplete := [] }
  | deliver (c : Calls) (k : Nat) (m : WalMessage) (hnext : s.next = some k)
      (hm : s.wal[k]? = some m) : Took host s (.deliver c) (s.deliver host k m c)
  | confirm : Took host s .confirm
      { s with confirmed_flush_lsn := max s.confirmed_flush_lsn s.flush_lsn }
  | lose : Took host s .lose { s with next := none }

theorem Slot.step_took (h : s.step host a = some t) : s.Took host a t := by
  cases a with
  | write m =>
      simp only [Slot.step] at h
      split at h
      · rename_i hm
        cases h
        exact .write m hm
      · cases h
  | start =>
      simp only [Slot.step] at h
      split at h
      · rename_i hnext
        cases h
        exact .start hnext
      · cases h
  | deliver c =>
      simp only [Slot.step] at h
      split at h
      · cases h
      · rename_i k hnext
        obtain ⟨m, hm, rfl⟩ := Option.map_eq_some_iff.mp h
        exact .deliver c k m hnext hm
  | confirm => cases h; exact .confirm
  | lose => cases h; exact .lose

theorem Slot.Traced.step (h : s.Traced host) (hs : s.step host a = some t) : t.Traced host := by
  cases step_took hs with
  | write m hm =>
      refine ⟨h.ledger, h.sources, fun n k d hn hd => ?_⟩
      obtain ⟨m', c, hm', hd'⟩ := h.from_wal n k d hn hd
      exact ⟨m', c, getElem?_snoc_iff.mpr (Or.inl hm'), hd'⟩
  | deliver c k m hnext hm => exact h.deliver hm
  | start hnext => exact ⟨h.ledger, h.sources, h.from_wal⟩
  | confirm => exact ⟨h.ledger, h.sources, h.from_wal⟩
  | lose => exact ⟨h.ledger, h.sources, h.from_wal⟩

/-- A reported position stays one of the WAL. -/
theorem position_of_write {x : Nat} (h : x = 0 ∨ ∃ m' ∈ s.wal, m'.data_start = x) :
    x = 0 ∨ ∃ m' ∈ s.wal ++ [m], m'.data_start = x :=
  h.imp_right fun ⟨m', hm', hx⟩ => ⟨m', List.mem_append_left _ hm', hx⟩

/-- **One step** keeps the invariant, as long as nothing that was let go is missing. -/
theorem Slot.Inv.step (h : s.Inv host) (hsafe : s.NothingLost host)
    (hs : s.step host a = some t) : t.Inv host := by
  have htraced := h.toTraced.step hs
  cases step_took hs with
  | write m hm =>
      refine ⟨htraced, fun i j m₁ m₂ hij hi hj => ?_, position_of_write h.reported,
        position_of_write h.confirmed, fun k hk => ?_⟩
      · rcases getElem?_snoc_iff.mp hj with hj | ⟨rfl, rfl⟩
        · rcases getElem?_snoc_iff.mp hi with hi | ⟨rfl, rfl⟩
          · exact h.ordered i j m₁ m₂ hij hi hj
          · have hlt := (List.getElem?_eq_some_iff.mp hj).1
            omega
        · rcases getElem?_snoc_iff.mp hi with hi | ⟨rfl, rfl⟩
          · exact hm m₁ (List.mem_of_getElem? hi)
          · omega
      · obtain ⟨hle, hall⟩ := h.passed k hk
        refine ⟨?_, hall⟩
        simp only [List.length_append]
        omega
  | start hnext =>
      obtain ⟨hle, hgone⟩ := s.restart_spec
      refine ⟨htraced, h.ordered, Or.inl rfl, h.confirmed, fun k hk => ?_⟩
      obtain rfl := Option.some.inj hk
      refine ⟨hle, fun j hj => (List.not_mem_nil hj).elim, fun j hj => Or.inl ?_⟩
      -- what the server skips is published
      have hlt : j < s.wal.length := by omega
      exact hsafe j _ (List.getElem?_eq_getElem hlt)
        (Nat.lt_of_lt_of_le (hgone j hj _ (List.getElem?_eq_getElem hlt)) (Nat.le_max_left ..))
  | deliver c k m hnext hm => exact h.deliver hnext hm
  | confirm =>
      refine ⟨htraced, h.ordered, h.reported, ?_, h.passed⟩
      rcases Nat.le_total s.confirmed_flush_lsn s.flush_lsn with hle | hle
      · dsimp only
        rw [Nat.max_eq_right hle]
        exact h.reported
      · dsimp only
        rw [Nat.max_eq_left hle]
        exact h.confirmed
  | lose => exact ⟨htraced, h.ordered, h.reported, h.confirmed, fun k hk => by cases hk⟩

/-- **One step** keeps everything that is let go published, exactly if it is no
acknowledgement that overtakes. -/
theorem Slot.nothingLost_step_iff (h : s.Inv host) (hsafe : s.NothingLost host)
    (hs : s.step host a = some t) : t.NothingLost host ↔ s.NoOvertaking host a := by
  cases step_took hs with
  | write m hm =>
      refine ⟨fun _ => trivial, fun _ k m' hk hlt => ?_⟩
      rcases getElem?_snoc_iff.mp hk with hk | ⟨rfl, rfl⟩
      · exact (Slot.stored_congr rfl rfl k).mpr (hsafe k m' hk hlt)
      · -- its transaction commits at or after every position that was reported
        have hposition : ∀ {x : Nat}, (x = 0 ∨ ∃ m' ∈ s.wal, m'.data_start = x) →
            x ≤ m.commit_lsn := by
          rintro x (rfl | ⟨m₁, hm₁, rfl⟩)
          · exact Nat.zero_le _
          · exact (hm m₁ hm₁).1
        exact absurd (max_le (hposition h.confirmed) (hposition h.reported)) (Nat.not_le_of_lt hlt)
  -- the reported position is forgotten, and the other one stays
  | start hnext =>
      refine ⟨fun _ => trivial, fun _ k m hk hlt => ?_⟩
      dsimp only at hlt
      rw [Nat.max_zero] at hlt
      exact (Slot.stored_congr rfl rfl k).mpr
        (hsafe k m hk (Nat.lt_of_lt_of_le hlt (Nat.le_max_left ..)))
  | deliver c k m hnext hm =>
      obtain ⟨hsent, hunsent⟩ := Slot.deliver_flush_lsn (k := k) (m := m) (c := c) h.toTraced
      obtain ⟨-, hincomplete, hpassed⟩ := h.passed k hnext
      constructor
      · -- a message that failed here and is in neither store is missing as soon as it is let go
        intro hafter k' m₁ hnext' hm₁ hsends j hj hnot m' hm'
        rw [hnext, Option.some.injEq] at hnext'
        subst hnext'
        rw [hm, Option.some.injEq] at hm₁
        subst hm₁
        by_contra hlt
        refine hnot (Slot.Stored.of_deliver h.toTraced (Nat.ne_of_lt (hincomplete j hj)) (hafter j m' hm' ?_))
        rw [hsent hsends]
        omega
      · intro hno j m' hj hlt
        by_cases hsends : (m.delivery c).Sends host
        · rw [hsent hsends] at hlt
          by_cases hold : m'.commit_lsn < max s.confirmed_flush_lsn s.flush_lsn
          · exact (hsafe j m' hj hold).deliver
          · have hpast : m'.commit_lsn < m.data_start := by
              simp only [Slot.deliver] at hlt
              omega
            -- before this message, the message itself, after it
            rcases Nat.lt_trichotomy j k with hjk | rfl | hkj
            · rcases hpassed j hjk with hstored | hin
              · exact hstored.deliver
              · by_cases hstored : s.Stored host j
                · exact hstored.deliver
                · have hle := hno k m hnext hm hsends j hin hstored m' hj
                  omega
            · exact Slot.stored_deliver h.toTraced (Delivery.complete_of_sends hsends)
            · have hle := (h.ordered k j m m' hkj hm hj).1
              omega
        · rw [hunsent hsends] at hlt
          exact (hsafe j m' hj hlt).deliver
  -- what was reported becomes what is confirmed, and nothing more is let go
  | confirm =>
      refine ⟨fun _ => trivial, fun _ k m hk hlt => ?_⟩
      dsimp only at hlt
      rw [Nat.max_assoc, Nat.max_self] at hlt
      exact (Slot.stored_congr rfl rfl k).mpr (hsafe k m hk hlt)
  | lose => exact ⟨fun _ => trivial, fun _ => hsafe⟩

/-! ## Runs -/

theorem Slot.traced_initial : Slot.initial.Traced host :=
  ⟨ledger_consume_stream host [], rfl, fun n k d hn => by simp [Slot.initial] at hn⟩

theorem Slot.inv_initial : Slot.initial.Inv host :=
  ⟨Slot.traced_initial, fun i j m m' _ hi => by simp [Slot.initial] at hi, Or.inl rfl,
    Or.inl rfl, fun k hk => by cases hk⟩

theorem Slot.nothingLost_initial : Slot.initial.NothingLost host :=
  fun k m hk => by simp [Slot.initial] at hk

/-- Whatever becomes of the connections, Redis has the last of what was added to it. -/
theorem Slot.withinMaxlen_of_run {s₀ : Slot} {tr : List (Slot × SlotAction)}
    (h : s₀.ingestor.WithinMaxlen host) (hrun : Run (Slot.step host) s₀ tr s) :
    s.ingestor.WithinMaxlen host := by
  refine hrun.invariant (C := fun _ _ => True) (I := fun s => s.ingestor.WithinMaxlen host)
    (fun s a t h _ hs => ?_) h fun _ _ => trivial
  cases step_took hs with
  | deliver c k m hnext hm => exact Ingestor.WithinMaxlen.process_message h
  | _ => exact h

theorem Slot.withinMaxlen_initial : Slot.initial.ingestor.WithinMaxlen host := Nat.zero_le _

/-- **When nothing is lost between two connections.** Over any sequence of connections, failed
calls, status updates and crashes, everything the slot has let go, or will on the next status
update, has been published to both stores exactly if no acknowledgement passes the end of a
transaction of which a message failed on the same connection and was not published to both.
Kafka still has what was published to it, and Redis the last of it. -/
theorem nothing_lost_iff {tr : List (Slot × SlotAction)}
    (hrun : Run (Slot.step host) Slot.initial tr s) :
    (((∀ p ∈ tr, p.1.NothingLost host) ∧ s.NothingLost host) ↔
      StepsMeet (Slot.NoOvertaking host) tr) ∧ s.ingestor.Retains host :=
  ⟨Run.exact (P := Slot.NothingLost host) (J := Slot.Inv host)
    (fun _ _ _ hsafe h hs => Slot.nothingLost_step_iff h hsafe hs)
    (fun _ _ _ hsafe h hs _ => h.step hsafe hs) Slot.nothingLost_initial Slot.inv_initial hrun,
    (Slot.withinMaxlen_of_run Slot.withinMaxlen_initial hrun).retains⟩

/-- What happens when the ingestor comes back and nothing fails any more; `evict` is how Redis
goes on trimming. -/
def Recovering (now_ms : Int) (evict : Slot → Nat → Nat) (s : Slot) : SlotAction → Prop
  | .lose => True
  | .start => True
  | .deliver c => c = Calls.succeeding now_ms (evict s)
  | _ => False

theorem complete_succeeding {now_ms : Int} (evict : Nat → Nat)
    (h : (m.delivery (Calls.succeeding now_ms)).records host ≠ none) :
    (m.delivery (Calls.succeeding now_ms evict)).complete host = true := by
  obtain ⟨rs, hrs⟩ := Option.ne_none_iff_exists'.mp h
  refine Delivery.complete_iff.mpr ⟨rs, hrs, fun i _ => ?_⟩
  simp [Delivery.stores, Delivery.reaches, WalMessage.delivery, Calls.succeeding,
    CallOutcome.succeeded, CallOutcome.done]

/-- A connection on which nothing has failed. -/
structure Slot.Clean (host : Host) (wal : List WalMessage) (s : Slot) : Prop where
  inv : s.Inv host
  safe : s.NothingLost host
  wal_eq : s.wal = wal
  connected : s.next ≠ none
  incomplete : s.incomplete = []

/-- The messages still to be sent. -/
def Slot.remaining (s : Slot) : Nat :=
  match s.next with
  | some k => s.wal.length - k
  | none => 0

theorem Slot.Clean.deliver {wal : List WalMessage} {now_ms : Int} (h : s.Clean host wal)
    (hparse : ∀ m ∈ wal, (m.delivery (Calls.succeeding now_ms)).records host ≠ none)
    (hleft : s.remaining ≠ 0) (evict : Nat → Nat) :
    ∃ t, s.step host (.deliver (Calls.succeeding now_ms evict)) = some t ∧
      t.Clean host wal ∧ t.remaining < s.remaining := by
  obtain ⟨k, hk⟩ := Option.ne_none_iff_exists'.mp h.connected
  have hlt : k < s.wal.length := by
    simp only [Slot.remaining, hk] at hleft
    omega
  have hm := List.getElem?_eq_getElem hlt
  have hs : s.step host (.deliver (Calls.succeeding now_ms evict))
      = some (s.deliver host k s.wal[k] (Calls.succeeding now_ms evict)) := by
    simp only [Slot.step, hk, hm, Option.map_some]
  have hcomplete := complete_succeeding evict
    (hparse s.wal[k] (by rw [← h.wal_eq]; exact List.getElem_mem hlt))
  refine ⟨_, hs, ⟨h.inv.step h.safe hs, (Slot.nothingLost_step_iff h.inv h.safe hs).mpr ?_,
    h.wal_eq, Option.some_ne_none _, ?_⟩, ?_⟩
  · intro k' m' _ _ _ j hj
    rw [h.incomplete] at hj
    cases hj
  · simp only [Slot.deliver, hcomplete, if_true]
    exact h.incomplete
  · simp only [Slot.remaining, Slot.deliver, hk]
    omega

/-- **At least once.** After any run without such an acknowledgement, whatever failed in it,
a new connection on which nothing fails, however Redis trims its stream meanwhile, ends with
every record of every message of the WAL published to both stores. Kafka has them all then,
and Redis the last of what was published to it. -/
theorem recovery_completes {tr : List (Slot × SlotAction)}
    (hrun : Run (Slot.step host) Slot.initial tr s) (htr : StepsMeet (Slot.NoOvertaking host) tr)
    {now_ms : Int}
    (hparse : ∀ m ∈ s.wal, (m.delivery (Calls.succeeding now_ms)).records host ≠ none)
    (evict : Slot → Nat → Nat) :
    ∃ tr' t, Run (Slot.step host) s tr' t ∧ StepsMeet (Recovering now_ms evict) tr' ∧
      t.wal = s.wal ∧ (∀ k < t.wal.length, t.Stored host k) ∧ t.ingestor.Retains host := by
  obtain ⟨hsafe, hinv⟩ := Run.invariant (C := Slot.NoOvertaking host)
    (I := fun s => s.NothingLost host ∧ s.Inv host)
    (fun _ _ _ ⟨hsafe, h⟩ hC hs => ⟨(Slot.nothingLost_step_iff h hsafe hs).mpr hC, h.step hsafe hs⟩)
    ⟨Slot.nothingLost_initial, Slot.inv_initial⟩ hrun htr
  -- the old connection ends, and a new one begins with nothing failed on it
  let lost : Slot := { s with next := none }
  have hlose : s.step host .lose = some lost := rfl
  have hlost := hinv.step hsafe hlose
  have hlost_safe := (Slot.nothingLost_step_iff hinv hsafe hlose).mpr trivial
  have hstart : lost.step host .start = some
      { lost with flush_lsn := 0, next := some lost.restart, incomplete := [] } := rfl
  have hclean : Slot.Clean host s.wal
      { lost with flush_lsn := 0, next := some lost.restart, incomplete := [] } :=
    ⟨hlost.step hlost_safe hstart, (Slot.nothingLost_step_iff hlost hlost_safe hstart).mpr trivial,
      rfl, Option.some_ne_none _, rfl⟩
  -- each delivery leaves one message less to be sent
  have hprogress : ∀ u, Slot.Clean host s.wal u → ¬ u.remaining = 0 →
      ∃ a t, Recovering now_ms evict u a ∧ u.step host a = some t ∧ Slot.Clean host s.wal t ∧
        t.remaining < u.remaining := by
    intro u hu hleft
    obtain ⟨t, ht, hclean, hlt⟩ := hu.deliver hparse hleft (evict u)
    exact ⟨.deliver (Calls.succeeding now_ms (evict u)), t, rfl, ht, hclean, hlt⟩
  obtain ⟨tr', t, hrun', htr', hend, hdone⟩ :=
    exists_run_of_rank (C := Recovering now_ms evict) Slot.remaining hprogress hclean
  have hall := Run.append (Run.cons (Run.cons Run.nil hlose) hstart) hrun'
  refine ⟨_, t, hall, fun p hp => ?_, hend.wal_eq, fun k hk => ?_,
    (Slot.withinMaxlen_of_run (Slot.withinMaxlen_of_run Slot.withinMaxlen_initial hrun)
      hall).retains⟩
  · rcases List.mem_append.mp hp with hp | hp
    · exact htr' p hp
    · simp only [List.mem_cons, List.not_mem_nil, or_false] at hp
      rcases hp with rfl | rfl <;> exact trivial
  · obtain ⟨next, hnext⟩ := Option.ne_none_iff_exists'.mp hend.connected
    simp only [Slot.remaining, hnext] at hdone
    have hstored := (hend.inv.passed next hnext).2.2 k (by omega)
    rw [hend.incomplete] at hstored
    exact hstored.resolve_right List.not_mem_nil

end

/-! ### Two transactions -/

/-- A transaction that inserts the row with key `id`: its message, and where it commits. -/
def insertTransaction (data_start commit_lsn : Nat) (id : Int) : WalMessage :=
  { data_start := data_start,
    commit_lsn := commit_lsn,
    payload := (insertMessage data_start id .ok .ok .ok).payload }

/-- The Kafka call for the first message times out without effect, and the connection ends. -/
def interrupted_actions : List SlotAction :=
  [.write (insertTransaction 100 110 7), .write (insertTransaction 120 130 8), .start,
    .deliver { Calls.succeeding 0 with send := fun _ => .raised false }, .lose]

/-- The first message is sent again, and then the second, Redis trimming all it may. -/
def resumed_actions : List SlotAction :=
  [.start, .deliver (.succeeding 0 fun _ => 5), .deliver (.succeeding 0 fun _ => 5), .confirm]

/-- A host on which the stream is trimmed to two entries. -/
def trimmingHost : Host := { bareHost with redis_stream_maxlen := 2 }

/-- Nothing has failed on the connection of a delivery. -/
def nothing_failed (p : Slot × SlotAction) : Bool :=
  match p.2 with
  | .deliver _ => p.1.incomplete.isEmpty
  | _ => true

theorem noOvertaking_of_trace {host : Host} {tr : List (Slot × SlotAction)}
    (h : tr.all nothing_failed = true) : StepsMeet (Slot.NoOvertaking host) tr := by
  intro p hp
  have hp := List.all_eq_true.mp h p hp
  unfold Slot.NoOvertaking
  split
  · rename_i c hc
    intro k m _ _ _ j hj
    simp only [nothing_failed, hc, List.isEmpty_iff] at hp
    rw [hp] at hj
    cases hj
  · exact trivial

/-- The first message got into Redis twice, and the older entry is trimmed away. -/
theorem nothing_lost_resumed :
    ∃ tr s, Run (Slot.step trimmingHost) Slot.initial tr s ∧ s.confirmed_flush_lsn = 120 ∧
      s.ingestor.kafka.length = 2 ∧ s.ingestor.redis.length = 3 ∧
      s.ingestor.stream.map (·.message) = [1, 2] ∧ s.NothingLost trimmingHost ∧
      s.ingestor.Retains trimmingHost := by
  obtain ⟨s, hs, hconfirmed, hkafka, hredis, hstream⟩ :
      ∃ s, exec (Slot.step trimmingHost) Slot.initial
        (interrupted_actions ++ resumed_actions) = some s ∧ s.confirmed_flush_lsn = 120 ∧
        s.ingestor.kafka.length = 2 ∧ s.ingestor.redis.length = 3 ∧
        s.ingestor.stream.map (·.message) = [1, 2] :=
    ⟨_, rfl, by decide, by decide, by decide, by decide⟩
  have hrun := run_trace hs
  obtain ⟨hiff, hretains⟩ := nothing_lost_iff hrun
  exact ⟨_, s, hrun, hconfirmed, hkafka, hredis, hstream,
    (hiff.mpr (noOvertaking_of_trace (by decide))).2, hretains⟩

/-- The second message is acknowledged on the connection on which the first one failed: the
slot lets the first one go, and its record is in no Kafka partition. -/
theorem overtaken_message_lost :
    ∃ tr s, Run (Slot.step bareHost) Slot.initial tr s ∧ s.restart = 1 ∧
      ¬ s.NothingLost bareHost := by
  obtain ⟨s, hs, hrestart, hm, hsources, hrecords, hkafka⟩ : ∃ s,
      exec (Slot.step bareHost) Slot.initial
        (interrupted_actions.take 4 ++ [.deliver (.succeeding 0), .confirm]) = some s ∧
      s.restart = 1 ∧
      (s.wal[0]?.map fun m => decide (m.commit_lsn < max s.confirmed_flush_lsn s.flush_lsn))
        = some true ∧
      s.sources = [0, 1] ∧
      (s.ingestor.delivered.map fun d => (d.records bareHost).map List.length)
        = [some 1, some 1] ∧
      s.ingestor.kafka.map (·.message) = [1] :=
    ⟨_, rfl, by decide, by decide, by decide, by decide, by decide⟩
  refine ⟨_, s, run_trace hs, hrestart, fun h => ?_⟩
  obtain ⟨m, hm, hlt⟩ := Option.map_eq_some_iff.mp hm
  obtain ⟨n, d, rs, hn, hd, hrs, hpub⟩ := h 0 m hm (of_decide_eq_true hlt)
  -- the first delivery is the only one of the first message, and it has one record
  obtain rfl : n = 0 := by
    rw [hsources] at hn
    match n with
    | 0 => rfl
    | 1 => cases hn
    | n + 2 => cases hn
  have hlen : rs.length = 1 := by
    have hmap := congrArg (fun l => l[0]?) hrecords
    simp only [List.getElem?_map, hd, hrs, Option.map_some] at hmap
    simpa using hmap
  have hmem := (hpub 0 rs[0] (List.getElem?_eq_getElem (by omega))).2
  have hzero : 0 ∈ s.ingestor.kafka.map (·.message) := List.mem_map.mpr ⟨_, hmem, rfl⟩
  rw [hkafka] at hzero
  exact absurd hzero (by decide)

/-- The Kafka call fails and the connection ends: nothing is in Kafka, and after the next
connection everything is, whatever is trimmed away from Redis on it. -/
theorem recovery_completes_interrupted :
    ∃ tr s tr' t, Run (Slot.step trimmingHost) Slot.initial tr s ∧ s.ingestor.kafka = [] ∧
      Run (Slot.step trimmingHost) s tr' t ∧
      StepsMeet (Recovering 0 fun _ _ => 5) tr' ∧ t.wal.length = 2 ∧
      (∀ k < t.wal.length, t.Stored trimmingHost k) ∧ t.ingestor.Retains trimmingHost := by
  obtain ⟨s, hs, hkafka, hlen, hparse⟩ : ∃ s, exec (Slot.step trimmingHost) Slot.initial
      interrupted_actions = some s ∧ s.ingestor.kafka = [] ∧ s.wal.length = 2 ∧
      (s.wal.all fun m => ((m.delivery (Calls.succeeding 0)).records trimmingHost).isSome) = true :=
    ⟨_, rfl, by decide, by decide, by decide⟩
  have hrun := run_trace hs
  obtain ⟨tr', t, hrun', htr', hwal, hstored, hretains⟩ := recovery_completes hrun
    (noOvertaking_of_trace (by decide)) (fun m hm => by
      simpa [Option.isSome_iff_ne_none] using List.all_eq_true.mp hparse m hm) fun _ _ => 5
  exact ⟨_, s, tr', t, hrun, hkafka, hrun', htr', by rw [hwal, hlen], hstored, hretains⟩

end WalStream.Ingest

/-
The order in which a store holds the changes of the WAL.

A message that fails is sent again on the next connection, and with it everything after it. So
Redis and Kafka are given changes more than once, and some before changes that come before them
in the WAL. As long as nothing is acknowledged beyond the end of a transaction of which a
message has failed on the connection, the order is one that gets through the WAL: reading all
that a store was given, from the front, is playing the WAL again. Of Kafka that is what the
topic holds; of Redis it is what the stream holds only as long as nothing is trimmed, and its
last part afterwards.

That no record is missing from the stores is not enough for that. A message that was stored on
an earlier connection may fail on this one, and what came before it has been published again.
-/
import WalStream.Ingest.Recovery
import WalStream.Lib.Redo
import WalStream.Source.Event

set_option autoImplicit false

namespace WalStream.Ingest

open Lib

/-! ## Parsing at another time

A message may be parsed several times, once for each connection that delivers it. The clock goes
into a record only where the payload has no commit time, so what a message publishes is the same
up to that field. -/

section

variable {host : Host} {lsn : Nat}

/-- A change is parsed to the same record whenever it is, but for the commit time it is given. -/
theorem parse_change_time {change : Json} {t t' : Int} {r : ChangeRecord}
    (h : parse_change host lsn t change = some r) :
    parse_change host lsn t' change = some { r with commit_time := t' } := by
  simp only [parse_change, Option.bind_eq_bind, Option.bind_eq_some_iff, Option.pure_def,
    Option.some.injEq] at h ⊢
  obtain ⟨action', haction', action, haction, schema, hschema, table, htable, new, hnew, old, hold,
    operation, hoperation, rfl⟩ := h
  exact ⟨action', haction', action, haction, schema, hschema, table, htable, new, hnew, old, hold,
    operation, hoperation, rfl⟩

/-- And so are all changes of a message. -/
theorem mapM_parse_change_time {changes : List Json} {t t' : Int} {rs : List ChangeRecord}
    (h : changes.mapM (parse_change host lsn t) = some rs) :
    changes.mapM (parse_change host lsn t')
      = some (rs.map fun r => { r with commit_time := t' }) := by
  induction changes generalizing rs with
  | nil =>
      cases h
      rfl
  | cons change changes ih =>
      simp only [List.mapM_cons, Option.bind_eq_bind, Option.bind_eq_some_iff, Option.pure_def,
        Option.some.injEq] at h ⊢
      obtain ⟨r, hr, rs, hrs, rfl⟩ := h
      exact ⟨_, parse_change_time hr, _, ih hrs, rfl⟩

/-- Whether a payload has a commit time does not depend on the clock. -/
theorem commit_time_ms_isSome {payload : Json} {now now' t : Int}
    (h : commit_time_ms host now payload = some t) :
    ∃ t', commit_time_ms host now' payload = some t' := by
  simp only [commit_time_ms, Option.bind_eq_bind, Option.bind_eq_some_iff] at h ⊢
  obtain ⟨timestamp, htimestamp, h⟩ := h
  cases timestamp with
  | str s =>
      dsimp only at h ⊢
      by_cases hs : s = ""
      · exact ⟨now', _, htimestamp, if_pos hs⟩
      · exact ⟨_, _, htimestamp, if_neg hs⟩
  | _ =>
      dsimp only at h ⊢
      split at h
      · cases h
      · rename_i hfalsy
        exact ⟨now', _, htimestamp, if_neg hfalsy⟩

/-- **Parsing at another time** yields the same changes. -/
theorem parse_time {payload : Json} {now now' : Int} {rs : List ChangeRecord}
    (h : parse_wal2json_v2 host now payload lsn = some rs) :
    ∃ t', parse_wal2json_v2 host now' payload lsn
      = some (rs.map fun r => { r with commit_time := t' }) := by
  simp only [parse_wal2json_v2, Option.bind_eq_bind, Option.bind_eq_some_iff] at h
  obtain ⟨t, ht, changes, hchanges, items, hitems, hmap⟩ := h
  obtain ⟨t', ht'⟩ : ∃ t', commit_time_ms host now' payload = some t' := commit_time_ms_isSome ht
  refine ⟨t', ?_⟩
  simp only [parse_wal2json_v2, ht', hchanges, hitems, Option.bind_eq_bind, Option.bind_some]
  exact mapM_parse_change_time hmap

end

/-! ## What is published of a message

A delivery appends the first of its records to a store, up to the call that raises, and whether
that one has taken effect is open. The results are for the records of any set of tables, since a
partition of Kafka has only some of them. -/

/-- The record without its commit time, for which the parser may take the clock. -/
def timeless (r : ChangeRecord) : ChangeRecord := { r with commit_time := 0 }

/-- The entries a store was given. -/
def Ingestor.entries (s : Ingestor) : SourceName → List Entry
  | .redis => s.redis
  | .kafka => s.kafka

/-- The records of the tables `own` a store was given. -/
def Ingestor.records (s : Ingestor) (own : String → Bool) (store : SourceName) :
    List ChangeRecord :=
  ((s.entries store).map Entry.record).filter fun r => own r.table

/-- The entries a store has left. -/
def Ingestor.held (s : Ingestor) : SourceName → List Entry
  | .redis => s.stream
  | .kafka => s.kafka

/-- The changes of the tables `own` in a message. -/
def WalMessage.changes (host : Host) (own : String → Bool) (m : WalMessage) : List ChangeRecord :=
  (((m.delivery (.succeeding 0)).records host).getD []).filter fun r => own r.table

section

variable {host : Host} {own : String → Bool} {store : SourceName} {s : Ingestor} {d : Delivery}
  {m : WalMessage} {c : Calls} {n i : Nat} {rs : List ChangeRecord}

/-- What the loop leaves in a store where a call for the first record raises: the record, if
the call has taken effect all the same. -/
theorem publish_all_raised (host : Host) (store : SourceName)
    (hraised : ¬ ((d.xadd i).succeeded = true ∧ (d.send i).succeeded = true)) (r : ChangeRecord)
    (rs : List ChangeRecord) :
    ∃ part, part <+: [r] ∧ ((publish_all host n d i (r :: rs) s).1.entries store).map Entry.record
        = (s.entries store).map Entry.record ++ part ∧
      (d.stores i = true → part = [r]) := by
  cases hx : (d.xadd i).succeeded with
  | true =>
      have hs : (d.send i).succeeded = false := by simpa [hx] using hraised
      have hxd := CallOutcome.done_of_succeeded hx
      cases store with
      | redis =>
          refine ⟨[r], List.prefix_rfl, ?_, fun _ => rfl⟩
          cases hsd : (d.send i).done <;>
            simp [publish_all, publish_to_redis, publish_to_kafka, hx, hs, hxd, hsd,
              Ingestor.entries]
      | kafka =>
          refine ⟨if (d.send i).done then [r] else [], ?_, ?_, fun h => ?_⟩
          · split
            · exact List.prefix_rfl
            · exact List.nil_prefix
          · cases hsd : (d.send i).done <;>
              simp [publish_all, publish_to_redis, publish_to_kafka, hx, hs, hxd, hsd,
                Ingestor.entries]
          · simp only [Delivery.stores, Bool.and_eq_true] at h
            rw [if_pos h.2]
  | false =>
      refine ⟨if store = .redis ∧ (d.xadd i).done = true then [r] else [], ?_, ?_, fun h => ?_⟩
      · split
        · exact List.prefix_rfl
        · exact List.nil_prefix
      · cases hxd : (d.xadd i).done <;> cases store <;>
          simp [publish_all, publish_to_redis, hx, hxd, Ingestor.entries]
      · simp [Delivery.stores, hx] at h

/-- The loop appends the records in order, up to where a call raises. -/
theorem publish_all_entries (store : SourceName) : ∃ part, part <+: rs ∧
    ((publish_all host n d i rs s).1.entries store).map Entry.record
      = (s.entries store).map Entry.record ++ part ∧
    ((∀ k < rs.length, d.stores (i + k) = true) → part = rs) := by
  induction rs generalizing i s with
  | nil => exact ⟨[], List.nil_prefix, (List.append_nil _).symm, fun _ => rfl⟩
  | cons r rs ih =>
      by_cases hnext : (d.xadd i).succeeded = true ∧ (d.send i).succeeded = true
      · obtain ⟨hx, hs⟩ := hnext
        obtain ⟨part, hprefix, hpart, hall⟩ :=
          ih (i := i + 1) (s := (s.xadd host ⟨n, i, r⟩ (d.evict i)).send ⟨n, i, r⟩)
        refine ⟨r :: part, List.cons_prefix_cons.mpr ⟨rfl, hprefix⟩, ?_, fun h => ?_⟩
        · rw [publish_all_next hx hs, hpart]
          cases store <;> simp [Ingestor.entries]
        · rw [hall fun k hk => ?_]
          rw [Nat.add_right_comm]
          exact h (k + 1) (Nat.succ_lt_succ hk)
      · obtain ⟨part, hprefix, hpart, hdone⟩ :=
          publish_all_raised (n := n) (s := s) host store hnext r rs
        refine ⟨part, hprefix.trans ⟨rs, rfl⟩, hpart, fun h => ?_⟩
        rw [hdone (h 0 (Nat.succ_pos _))]
        cases rs with
        | nil => rfl
        | cons r' rs =>
            -- the second record is not reached
            have hlater := h 1 (by simp)
            simp only [Delivery.stores, Bool.and_eq_true] at hlater
            exact absurd (reaches_succ.mp hlater.1.1).2 hnext

/-- An acknowledgement changes neither store. -/
theorem acknowledge_entries (store : SourceName) :
    (acknowledge s d).1.entries store = s.entries store := by
  cases store with
  | redis => exact acknowledge_redis
  | kafka => exact acknowledge_kafka

/-- **What a message appends to a store**: the first of its records, all of them if it is
complete. -/
theorem process_message_records (host : Host) (s : Ingestor) (d : Delivery) (own : String → Bool)
    (store : SourceName) :
    ∃ p ≤ (((d.records host).getD []).filter fun r => own r.table).length,
      (process_message host s d).1.records own store = s.records own store
        ++ (((d.records host).getD []).filter fun r => own r.table).take p ∧
      (d.complete host = true →
        p = (((d.records host).getD []).filter fun r => own r.table).length) := by
  cases hrec : d.records host with
  | none => 
      refine ⟨0, Nat.zero_le _, ?_, fun _ => rfl⟩
      cases store <;> simp [process_message, hrec, Ingestor.records, Ingestor.entries]
  | some rs =>
      obtain ⟨part, hprefix, hpart, hall⟩ := @publish_all_entries host
        { s with delivered := s.delivered ++ [d] } d s.delivered.length 0 rs store
      have hentries : ((process_message host s d).1.entries store).map Entry.record
          = (s.entries store).map Entry.record ++ part := by
        have hstart : ({ s with delivered := s.delivered ++ [d] } : Ingestor).entries store
            = s.entries store := by cases store <;> rfl
        rw [hstart] at hpart
        simp only [process_message, hrec]
        generalize publish_all host s.delivered.length d 0 rs
          { s with delivered := s.delivered ++ [d] } = out at hpart ⊢
        obtain ⟨s', ok⟩ := out
        cases ok with
        | false => exact hpart
        | true =>
            dsimp only
            rw [acknowledge_entries]
            exact hpart
      -- the first of the records, and so the first of those of these tables
      have hfilter := hprefix.filter fun r => own r.table
      refine ⟨_, hfilter.length_le, ?_, fun hcomplete => ?_⟩
      · rw [Ingestor.records, hentries, List.filter_append, Option.getD_some,
          ← List.prefix_iff_eq_take.mp hfilter]
        rfl
      · obtain ⟨rs', hrs', hstores⟩ := Delivery.complete_iff.mp hcomplete
        rw [hrec, Option.some.injEq] at hrs'
        subst hrs'
        rw [hall fun k hk => by rw [Nat.zero_add]; exact hstores k hk, Option.getD_some]

/-- Whatever the clock, a message has the same changes. -/
theorem changes_of_delivery (host : Host) (own : String → Bool) (m : WalMessage) (c : Calls) :
    ((((m.delivery c).records host).getD []).filter fun r => own r.table).map timeless
      = (m.changes host own).map timeless := by
  have htime : ∀ (c c' : Calls) rs, (m.delivery c).records host = some rs →
      ∃ t', (m.delivery c').records host = some (rs.map fun r => { r with commit_time := t' }) := by
    intro c c' rs hrs
    obtain ⟨payload, hpayload, hparse⟩ := Option.bind_eq_some_iff.mp hrs
    obtain ⟨t', ht'⟩ : ∃ t', parse_wal2json_v2 host c'.now_ms payload m.data_start
        = some (rs.map fun r => { r with commit_time := t' }) := parse_time hparse
    exact ⟨t', Option.bind_eq_some_iff.mpr ⟨payload, hpayload, ht'⟩⟩
  cases hrec : (m.delivery c).records host with
  | none =>
      have hnone : (m.delivery (.succeeding 0)).records host = none := by
        rw [Option.eq_none_iff_forall_ne_some]
        intro rs hrs
        obtain ⟨t', ht'⟩ := htime _ c rs hrs
        rw [hrec] at ht'
        cases ht'
      rw [WalMessage.changes, hnone]
  | some rs =>
      obtain ⟨t', ht'⟩ := htime c (.succeeding 0) rs hrec
      rw [WalMessage.changes, ht', Option.getD_some, Option.getD_some, List.filter_map,
        List.map_map]
      rfl

end

/-! ## Places in the WAL

The changes of a WAL are numbered through, and a message takes a row of places. All that follows
is about lists of numbers. -/

/-- The changes of the tables `own` in the WAL. -/
def wal_changes (host : Host) (own : String → Bool) (wal : List WalMessage) : List ChangeRecord :=
  wal.flatMap (WalMessage.changes host own)

/-- The place of the first change of message number `k`. -/
def place (host : Host) (own : String → Bool) (wal : List WalMessage) (k : Nat) : Nat :=
  (wal_changes host own (wal.take k)).length

section

variable {host : Host} {own : String → Bool} {wal : List WalMessage} {m : WalMessage} {i j k : Nat}

/-- The changes of a WAL are those of its messages, one after the other. -/
theorem wal_changes_append (wal wal' : List WalMessage) :
    wal_changes host own (wal ++ wal') = wal_changes host own wal ++ wal_changes host own wal' :=
  List.flatMap_append

/-- The first message begins at the beginning. -/
@[simp] theorem place_zero : place host own wal 0 = 0 := rfl

/-- Behind the last message lies the end of all changes. That a store has got through the WAL is
said of this place. -/
theorem place_length : place host own wal wal.length = (wal_changes host own wal).length := by
  rw [place, List.take_length]

/-- Messages further on begin further on, or at the same place, when those between have no
change of these tables. -/
theorem place_mono (h : i ≤ j) : place host own wal i ≤ place host own wal j := by
  obtain ⟨more, hmore⟩ := List.take_prefix_take_left (l := wal) h
  rw [place, place, ← hmore, wal_changes_append, List.length_append]
  exact Nat.le_add_right _ _

/-- A message takes the room of its changes. -/
theorem place_succ (hm : wal[k]? = some m) :
    place host own wal (k + 1) = place host own wal k + (m.changes host own).length := by
  rw [place, place, List.take_add_one, hm, wal_changes_append, List.length_append]
  simp [wal_changes]

/-- New messages come behind the old ones and move none of them. -/
theorem place_append (h : k ≤ wal.length) : place host own (wal ++ [m]) k = place host own wal k := by
  rw [place, place, List.take_append_of_le_length h]

/-- From its place on, the changes begin with those of the message. So what is published of it
is a row of places, which is how the lemmas on orders are about it. -/
theorem drop_place (host : Host) (own : String → Bool) (hm : wal[k]? = some m) : ∃ rest,
    (wal_changes host own wal).drop (place host own wal k) = m.changes host own ++ rest := by
  obtain ⟨hk, rfl⟩ := List.getElem?_eq_some_iff.mp hm
  refine ⟨wal_changes host own (wal.drop (k + 1)), ?_⟩
  conv_lhs => rw [← List.take_append_drop k wal, wal_changes_append]
  rw [place, List.take_append_drop, List.drop_left, List.drop_eq_getElem_cons hk]
  rfl

end

/-! ## The order of a store

A store holds the changes in the order of several passes through the WAL, each of which begins
where the slot was. `Lib.Redo` says what it means for such an order to end with a whole pass;
here the passes are the connections, and the first failure on one of them is where a pass may
stop being in turn. -/

/-- The records are those of the history at the places `order`, whatever their commit times. -/
structure PublishedAs (history records : List ChangeRecord) (order : List Nat) : Prop where
  in_range : ∀ i ∈ order, i < history.length
  records_eq : records.map timeless = (replayed history order).map timeless

/-- Where the positions of the changes tell them apart, those of the records tell their order. -/
theorem PublishedAs.order_eq {history records : List ChangeRecord} {order : List Nat}
    (h : PublishedAs history records order) (number : String → Nat)
    (hnumber : (history.map fun r => number r.lsn) = List.range history.length) :
    order = records.map fun r => number r.lsn := by
  have heq := congrArg (List.map fun r => number r.lsn) h.records_eq
  rw [List.map_map, List.map_map] at heq
  calc order = replayed (history.map fun r => number r.lsn) order := by
        rw [hnumber, replayed_range h.in_range]
    _ = (replayed history order).map fun r => number r.lsn := replayed_map ..
    _ = records.map fun r => number r.lsn := heq.symm

/-- No acknowledgement passes the end of a transaction of which a message has failed on this
connection. -/
def Slot.NoneSkipped (host : Host) (s : Slot) : SlotAction → Prop
  | .deliver c => ∀ k m, s.next = some k → s.wal[k]? = some m → (m.delivery c).Sends host →
      ∀ j ∈ s.incomplete, ∀ m', s.wal[j]? = some m' → m.data_start ≤ m'.commit_lsn
  | _ => True

/-- After a failure nothing more is delivered on the connection. -/
def Slot.StopsAtFailure (s : Slot) : SlotAction → Prop
  | .deliver _ => s.incomplete = []
  | _ => True

/-- The order in which a store holds the changes: the last time through is not behind what the
slot has let go, nor behind the first failure on the connection. -/
structure Slot.Sequenced (host : Host) (own : String → Bool) (store : SourceName) (s : Slot)
    (order : List Nat) : Prop where
  published : PublishedAs (wal_changes host own s.wal) (s.ingestor.records own store) order
  connected : ∀ k, s.next = some k → ∀ j ≤ k, (∀ i ∈ s.incomplete, j ≤ i) →
    place host own s.wal j ≤ mark order
  gone : ∀ k m, s.wal[k]? = some m → m.commit_lsn < max s.confirmed_flush_lsn s.flush_lsn →
    place host own s.wal (k + 1) ≤ mark order ∧ ∀ next, s.next = some next → k < next

section

variable {host : Host} {own : String → Bool} {store : SourceName} {s t : Slot} {a : SlotAction}
  {m : WalMessage} {c : Calls} {k : Nat} {order : List Nat}

/-- The condition is stronger than the one under which nothing is missing in the end: that one
allows a failed message to be published by a later connection, after others. -/
theorem Slot.NoneSkipped.noOvertaking (h : s.NoneSkipped host a) : s.NoOvertaking host a := by
  cases a with
  | deliver c => exact fun k m hk hm hsends j hj _ => h k m hk hm hsends j hj
  | _ => trivial

/-- If a connection ends at its first failure, nothing is acknowledged behind it either. -/
theorem Slot.StopsAtFailure.noneSkipped (h : s.StopsAtFailure a) : s.NoneSkipped host a := by
  cases a with
  | deliver c =>
      intro k m _ _ _ j hj
      rw [show s.incomplete = [] from h] at hj
      cases hj
  | _ => trivial

/-- Messages that commit before another come before it. -/
theorem Slot.Inv.lt_of_commit (h : s.Inv host) {i j : Nat} {m m' : WalMessage}
    (hi : s.wal[i]? = some m) (hj : s.wal[j]? = some m') (hlt : m.commit_lsn < m'.commit_lsn) :
    i < j := by
  rcases Nat.lt_trichotomy i j with hij | rfl | hji
  · exact hij
  · rw [hi, Option.some.injEq] at hj
    rw [hj] at hlt
    exact absurd hlt (Nat.lt_irrefl _)
  · exact absurd (h.ordered j i m' m hji hj hi).2 (Nat.not_le_of_lt hlt)

/-- The message a connection begins with has not been let go. -/
theorem Slot.confirmed_le_restart (hm : s.wal[s.restart]? = some m) :
    s.confirmed_flush_lsn ≤ m.commit_lsn := by
  have hget : ((s.wal.takeWhile fun m => decide (m.commit_lsn < s.confirmed_flush_lsn))
      ++ s.wal.dropWhile fun m => decide (m.commit_lsn < s.confirmed_flush_lsn))[s.restart]?
      = some m := by
    rw [List.takeWhile_append_dropWhile]
    exact hm
  rw [Slot.restart, List.getElem?_append_right (Nat.le_refl _), Nat.sub_self,
    ← List.head?_eq_getElem?] at hget
  have hnot := List.head?_dropWhile_not (fun m => decide (m.commit_lsn < s.confirmed_flush_lsn))
    s.wal
  rw [hget] at hnot
  simpa using hnot

/-- One message is delivered. Where nothing has failed before it on the connection, it goes on
in turn. -/
theorem Slot.Sequenced.deliver (h : s.Sequenced host own store order) (hinv : s.Inv host)
    (hnext : s.next = some k) (hm : s.wal[k]? = some m) (hC : s.NoneSkipped host (.deliver c)) :
    ∃ order', (s.deliver host k m c).Sequenced host own store order' ∧
      (s.incomplete = [] → InTurn order → InTurn order') := by
  obtain ⟨p, hp, hrecords, hcomplete⟩ :=
    process_message_records host s.ingestor (m.delivery c) own store
  have hlength : ((((m.delivery c).records host).getD []).filter fun r => own r.table).length
      = (m.changes host own).length := by
    have := congrArg List.length (changes_of_delivery host own m c)
    rwa [List.length_map, List.length_map] at this
  rw [hlength] at hp hcomplete
  obtain ⟨rest, hrest⟩ := drop_place host own hm
  -- the places of the message are within the WAL
  have hend : place host own s.wal k + (m.changes host own).length
      ≤ (wal_changes host own s.wal).length := by
    rw [← place_succ hm, ← place_length]
    exact place_mono (List.getElem?_eq_some_iff.mp hm).1
  -- up to this message, what the mark had reached it has reached still
  have hkeep : ∀ {j}, j ≤ k → place host own s.wal j ≤ mark order →
      place host own s.wal j ≤ mark (order ++ List.range' (place host own s.wal k) p) := by
    intro j hj hle
    rw [mark, List.foldl_append]
    refine le_foldl_advance (fun i hi => ?_) hle
    exact Nat.le_trans (place_mono hj) (List.mem_range'_1.mp hi).1
  -- on this connection it reaches as far as nothing has failed
  have hconnected : ∀ j ≤ k + 1, (∀ i ∈ (s.deliver host k m c).incomplete, j ≤ i) →
      place host own s.wal j ≤ mark (order ++ List.range' (place host own s.wal k) p) := by
    intro j hj hall
    simp only [Slot.deliver] at hall
    split at hall
    · rename_i hdone
      rcases Nat.lt_or_eq_of_le hj with hlt | rfl
      · exact hkeep (Nat.le_of_lt_succ hlt) (h.connected k hnext j (Nat.le_of_lt_succ hlt) hall)
      · -- all of the message is published
        have hle := h.connected k hnext k (Nat.le_refl k) fun i hi => Nat.le_of_succ_le (hall i hi)
        rw [place_succ hm, ← hcomplete hdone, mark, List.foldl_append]
        exact add_le_foldl_range' hle
    · have hjk : j ≤ k := hall k (List.mem_cons_self ..)
      exact hkeep hjk (h.connected k hnext j hjk fun i hi => hall i (List.mem_cons_of_mem _ hi))
  refine ⟨order ++ List.range' (place host own s.wal k) p, ⟨⟨fun i hi => ?_, ?_⟩, ?_, ?_⟩,
    fun hclean hturn => hturn.append_range' <| h.connected k hnext k (Nat.le_refl k) fun i hi => by
      rw [hclean] at hi
      cases hi⟩
  · rcases List.mem_append.mp hi with hi | hi
    · exact h.published.in_range i hi
    · have := (List.mem_range'_1.mp hi).2
      dsimp only [Slot.deliver]
      omega
  · dsimp only [Slot.deliver]
    rw [hrecords, List.map_append, h.published.records_eq, replayed_append, List.map_append,
      replayed_range' (by omega), hrest, List.take_append_of_le_length hp, List.map_take,
      List.map_take, changes_of_delivery]
  · intro k' hk' j hj hall
    simp only [Slot.deliver, Option.some.injEq] at hk'
    exact hconnected j (hk' ▸ hj) hall
  · intro j m' hj hlt
    -- what was let go, before or by this delivery, has been reached
    have hbehind : ∀ next, (s.deliver host k m c).next = some next → next = k + 1 := by
      intro next hn
      exact (Option.some.inj hn).symm
    by_cases hold : m'.commit_lsn < max s.confirmed_flush_lsn s.flush_lsn
    · obtain ⟨hle, hlt'⟩ := h.gone j m' hj hold
      have hjk : j < k := hlt' k hnext
      exact ⟨hkeep hjk hle, fun next hn => by rw [hbehind next hn]; omega⟩
    · -- let go by the feedback for this message
      obtain ⟨hsent, hunsent⟩ := Slot.deliver_flush_lsn (k := k) (m := m) (c := c) hinv.toTraced
      by_cases hsends : (m.delivery c).Sends host
      · rw [hsent hsends] at hlt
        have hpast : m'.commit_lsn < m.data_start := by
          simp only [Slot.deliver] at hlt
          omega
        have hjk : j ≤ k := by
          by_contra hkj
          have := (hinv.ordered k j m m' (Nat.lt_of_not_le hkj) hm hj).1
          omega
        refine ⟨hconnected (j + 1) (Nat.succ_le_succ hjk) fun i hi => ?_,
          fun next hn => by rw [hbehind next hn]; omega⟩
        simp only [Slot.deliver, Delivery.complete_of_sends hsends, if_true] at hi
        have hilt := (hinv.passed k hnext).2.1 i hi
        have hilen : i < s.wal.length := Nat.lt_trans hilt (List.getElem?_eq_some_iff.mp hm).1
        have hi' := List.getElem?_eq_getElem hilen
        -- a failed message before it would be let go as well, which the condition excludes
        have hle := hC k m hnext hm hsends i hi _ hi'
        exact hinv.lt_of_commit hj hi' (Nat.lt_of_lt_of_le hpast hle)
      · rw [hunsent hsends] at hlt
        exact absurd hlt hold

/-- **One step.** -/
theorem Slot.Sequenced.step (h : s.Sequenced host own store order) (hinv : s.Inv host)
    (hC : s.NoneSkipped host a) (hs : s.step host a = some t) :
    ∃ order', t.Sequenced host own store order' ∧
      (s.StopsAtFailure a → InTurn order → InTurn order') := by
  cases Slot.step_took hs with
  | write m hm =>
      -- a new message has its places behind all others
      have hplace : ∀ {j}, j ≤ s.wal.length →
          place host own (s.wal ++ [m]) j = place host own s.wal j := place_append
      refine ⟨order, ⟨⟨fun i hi => ?_, ?_⟩, fun k hk j hj hall => ?_, fun k m' hk hlt => ?_⟩,
        fun _ hturn => hturn⟩
      · rw [wal_changes_append, List.length_append]
        exact Nat.lt_of_lt_of_le (h.published.in_range i hi) (Nat.le_add_right _ _)
      · rw [wal_changes_append, replayed_grow h.published.in_range]
        exact h.published.records_eq
      · rw [hplace (Nat.le_trans hj (hinv.passed k hk).1)]
        exact h.connected k hk j hj hall
      · rcases getElem?_snoc_iff.mp hk with hk | ⟨rfl, rfl⟩
        · rw [hplace (List.getElem?_eq_some_iff.mp hk).1]
          exact h.gone k m' hk hlt
        · -- its transaction commits at or after every position that was reported
          have hposition : ∀ {x : Nat}, (x = 0 ∨ ∃ m' ∈ s.wal, m'.data_start = x) →
              x ≤ m.commit_lsn := by
            rintro x (rfl | ⟨m₁, hm₁, rfl⟩)
            · exact Nat.zero_le _
            · exact (hm m₁ hm₁).1
          exact absurd (max_le (hposition hinv.confirmed) (hposition hinv.reported))
            (Nat.not_le_of_lt hlt)
  | start hnext =>
      -- a connection begins behind what was let go, which the mark has reached
      obtain ⟨hle, hgone⟩ := s.restart_spec
      refine ⟨order, ⟨h.published, fun k hk j hj _ => ?_, fun k m hk hlt => ?_⟩,
        fun _ hturn => hturn⟩
      · obtain rfl := Option.some.inj hk
        cases j with
        | zero => exact Nat.zero_le _
        | succ j =>
            have hj' := List.getElem?_eq_getElem (Nat.lt_of_lt_of_le hj hle)
            exact (h.gone j _ hj' (Nat.lt_of_lt_of_le (hgone j hj _ hj') (Nat.le_max_left ..))).1
      · dsimp only at hlt
        rw [Nat.max_zero] at hlt
        refine ⟨(h.gone k m hk (Nat.lt_of_lt_of_le hlt (Nat.le_max_left ..))).1, fun next hn => ?_⟩
        obtain rfl := Option.some.inj hn
        by_contra hbehind
        obtain ⟨m', hm'⟩ : ∃ m', s.wal[s.restart]? = some m' :=
          ⟨_, List.getElem?_eq_getElem
            (Nat.lt_of_le_of_lt (Nat.not_lt.mp hbehind) (List.getElem?_eq_some_iff.mp hk).1)⟩
        have hle' := Slot.confirmed_le_restart hm'
        exact hbehind (hinv.lt_of_commit hk hm' (Nat.lt_of_lt_of_le hlt hle'))
  | deliver c k m hnext hm => exact h.deliver hinv hnext hm hC
  -- what is confirmed had been reported
  | confirm =>
      refine ⟨order, ⟨h.published, h.connected, fun k m hk hlt => h.gone k m hk ?_⟩,
        fun _ hturn => hturn⟩
      rwa [Nat.max_assoc, Nat.max_self] at hlt
  -- without a connection there is no next message
  | lose => exact ⟨order, ⟨h.published, fun k hk => (by cases hk), fun k m hk hlt =>
      ⟨(h.gone k m hk hlt).1, fun next hn => by cases hn⟩⟩, fun _ hturn => hturn⟩

/-! ## Runs -/

/-- Before the first message the stores are empty. -/
theorem Slot.sequenced_initial : Slot.initial.Sequenced host own store [] := by
  refine ⟨⟨fun i hi => absurd hi List.not_mem_nil, ?_⟩, fun k hk => (by cases hk),
    fun k m hk => by simp [Slot.initial] at hk⟩
  cases store <;> rfl

/-- Along a run the order is kept together with the facts about the slot it rests on: that
nothing is lost, and what the positions mean. -/
theorem Slot.sequenced_of_run {tr : List (Slot × SlotAction)}
    (hrun : Run (Slot.step host) Slot.initial tr s) (htr : StepsMeet (Slot.NoneSkipped host) tr)
    (own : String → Bool) (store : SourceName) :
    (s.NothingLost host ∧ s.Inv host) ∧ ∃ order, s.Sequenced host own store order := by
  refine hrun.invariant (I := fun s : Slot => (s.NothingLost host ∧ s.Inv host) ∧
    ∃ order, s.Sequenced host own store order) ?_
    ⟨⟨Slot.nothingLost_initial, Slot.inv_initial⟩, [], Slot.sequenced_initial⟩ htr
  rintro s a t ⟨⟨hsafe, hinv⟩, order, h⟩ hC hs
  have hsafe' := (Slot.nothingLost_step_iff hinv hsafe hs).mpr hC.noOvertaking
  obtain ⟨order', h', -⟩ := h.step hinv hC hs
  exact ⟨⟨hsafe', hinv.step hsafe hs⟩, order', h'⟩

/-- When a connection on which nothing has failed has got through the WAL, so has the store. -/
theorem Slot.Sequenced.mark_eq (h : s.Sequenced host own store order)
    (hnext : s.next = some s.wal.length) (hclean : s.incomplete = []) :
    mark order = (wal_changes host own s.wal).length := by
  refine Nat.le_antisymm (foldl_advance_le h.published.in_range (Nat.zero_le _)) ?_
  rw [← place_length]
  refine h.connected _ hnext _ (Nat.le_refl _) fun i hi => ?_
  rw [hclean] at hi
  cases hi

/-- **A store plays the WAL again.** Over any sequence of connections, failed calls, status
updates and crashes in which nothing is acknowledged beyond a failure of the same connection,
what was published to a store of any tables is, in its order, changes of the WAL, again and
out of turn. The last time through them is never behind what the slot has let go; and when a
connection has got through the WAL, and nothing has failed on it, so is the last time through.
The topic holds what was published; the Redis stream holds the last of it. -/
theorem store_plays_wal {tr : List (Slot × SlotAction)}
    (hrun : Run (Slot.step host) Slot.initial tr s) (htr : StepsMeet (Slot.NoneSkipped host) tr)
    (own : String → Bool) (store : SourceName) :
    ∃ order, PublishedAs (wal_changes host own s.wal) (s.ingestor.records own store) order ∧
      (∀ k m, s.wal[k]? = some m → m.commit_lsn < max s.confirmed_flush_lsn s.flush_lsn →
        place host own s.wal (k + 1) ≤ mark order) ∧
      (s.next = some s.wal.length → s.incomplete = [] →
        mark order = (wal_changes host own s.wal).length) ∧ s.ingestor.Retains host := by
  obtain ⟨-, order, h⟩ := Slot.sequenced_of_run hrun htr own store
  exact ⟨order, h.published, fun k m hk hlt => (h.gone k m hk hlt).1, h.mark_eq,
    (Slot.withinMaxlen_of_run Slot.withinMaxlen_initial hrun).retains⟩

end

/-- For a run that is written down: a test of its trace is enough, as the condition only speaks
of failures on the connection. -/
theorem stopsAtFailure_of_trace {tr : List (Slot × SlotAction)}
    (h : tr.all nothing_failed = true) : StepsMeet Slot.StopsAtFailure tr := by
  intro p hp
  have hp := List.all_eq_true.mp h p hp
  unfold Slot.StopsAtFailure
  split
  · rename_i c hc
    simpa only [nothing_failed, hc, List.isEmpty_iff] using hp
  · exact trivial

/-- The same for the weaker condition. -/
theorem noneSkipped_of_trace {host : Host} {tr : List (Slot × SlotAction)}
    (h : tr.all nothing_failed = true) : StepsMeet (Slot.NoneSkipped host) tr :=
  fun p hp => (stopsAtFailure_of_trace h p hp).noneSkipped

/-- The Kafka call for the first change fails and the connection ends: Redis is given the
change twice, and has the later entry of it left. -/
theorem store_plays_wal_interrupted :
    ∃ tr s order, Run (Slot.step trimmingHost) Slot.initial tr s ∧
      s.ingestor.redis.length = 3 ∧ s.ingestor.stream.length = 2 ∧
      PublishedAs (wal_changes trimmingHost (fun _ => true) s.wal)
        (s.ingestor.records (fun _ => true) .redis) order ∧ mark order = 2 ∧
      s.ingestor.Retains trimmingHost := by
  obtain ⟨s, hs, hlength, hstream, hnext, hclean, hchanges⟩ :
      ∃ s, exec (Slot.step trimmingHost) Slot.initial
        (interrupted_actions ++ resumed_actions) = some s ∧ s.ingestor.redis.length = 3 ∧
        s.ingestor.stream.length = 2 ∧ s.next = some s.wal.length ∧ s.incomplete = [] ∧
        (wal_changes trimmingHost (fun _ => true) s.wal).length = 2 :=
    ⟨_, rfl, by decide, by decide, by decide, by decide, by decide⟩
  have hrun := run_trace hs
  obtain ⟨order, hpublished, -, hmark, hretains⟩ :=
    store_plays_wal hrun (noneSkipped_of_trace (by decide)) (fun _ => true) .redis
  exact ⟨_, s, order, hrun, hlength, hstream, hpublished, by rw [hmark hnext hclean, hchanges],
    hretains⟩

/-- Two changes are stored on a first connection, and the first one again on a second. There
the second one fails, the third is acknowledged, and a third connection goes on with it. -/
def overwritten_actions : List SlotAction :=
  [.write (insertTransaction 100 110 7), .write (insertTransaction 120 130 8),
    .write (insertTransaction 140 150 9), .start, .deliver (.succeeding 0),
    .deliver (.succeeding 0), .lose, .start, .deliver (.succeeding 0),
    .deliver { Calls.succeeding 0 with xadd := fun _ => .raised false }, .deliver (.succeeding 0),
    .confirm, .lose, .start, .deliver (.succeeding 0)]

/-- Which of the three changes is at a position. -/
def overwritten_number (lsn : String) : Nat :=
  if lsn = "100" then 0 else if lsn = "120" then 1 else 2

/-- Every change is in Kafka, and yet reading it from the front does not get through the WAL:
the second change comes before the first one does for the last time. -/
theorem stored_out_of_turn :
    ∃ tr s, Run (Slot.step bareHost) Slot.initial tr s ∧ s.next = some s.wal.length ∧
      s.incomplete = [] ∧ (s.ingestor.records (fun _ => true) .kafka).map (·.lsn)
        = ["100", "120", "100", "140", "140"] ∧
      ∀ order, PublishedAs (wal_changes bareHost (fun _ => true) s.wal)
        (s.ingestor.records (fun _ => true) .kafka) order → mark order = 1 := by
  obtain ⟨s, hs, hnext, hclean, hrecords, hnumber, horder⟩ : ∃ s,
      exec (Slot.step bareHost) Slot.initial overwritten_actions = some s ∧
      s.next = some s.wal.length ∧ s.incomplete = [] ∧
      (s.ingestor.records (fun _ => true) .kafka).map (·.lsn)
        = ["100", "120", "100", "140", "140"] ∧
      ((wal_changes bareHost (fun _ => true) s.wal).map fun r => overwritten_number r.lsn)
        = List.range (wal_changes bareHost (fun _ => true) s.wal).length ∧
      ((s.ingestor.records (fun _ => true) .kafka).map fun r => overwritten_number r.lsn)
        = [0, 1, 0, 2, 2] :=
    ⟨_, rfl, by decide, by decide, by decide, by decide, by decide⟩
  refine ⟨_, s, run_trace hs, hnext, hclean, hrecords, fun order h => ?_⟩
  rw [h.order_eq overwritten_number hnumber, horder]
  rfl

end WalStream.Ingest

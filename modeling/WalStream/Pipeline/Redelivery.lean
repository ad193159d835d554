/-
A message that PostgreSQL sends again.

The ingestor parses it again, with the clock of that moment. The clock gets into the records
of a payload without a usable timestamp, as their commit time, and into nothing else; the
idempotency key does not read it. So all that is published of one change of the WAL, on
however many connections, is one event to the replayer.
-/
import WalStream.Ingest.Sequence
import WalStream.Replayer.Service

set_option autoImplicit false

namespace WalStream.Pipeline

open Lib Ingest Replayer

/-- The two records are the same change, whatever their commit times. -/
def SameChange (r r' : ChangeRecord) : Prop := r' = { r with commit_time := r'.commit_time }

theorem SameChange.key_eq {r r' : ChangeRecord} (h : SameChange r r') (md5_16 : String → String) :
    compute_idempotency_key md5_16 r' = compute_idempotency_key md5_16 r := by
  rw [h]
  rfl

/-! ## Entries of one change -/

section

variable {host : Host} {s : Slot}

/-- An entry of either store is a record of the message it was published for. -/
theorem entry_record (h : s.Traced host) {e : Entry}
    (he : e ∈ s.ingestor.redis ∨ e ∈ s.ingestor.kafka) :
    ∃ d rs, s.ingestor.delivered[e.message]? = some d ∧ d.records host = some rs ∧
      rs[e.index]? = some e.record := by
  rcases he with he | he
  · obtain ⟨d, rs, hd, hrs, hr, -, -⟩ := (h.ledger.mem_redis e).mp he
    exact ⟨d, rs, hd, hrs, hr⟩
  · obtain ⟨d, rs, hd, hrs, hr, -⟩ := (h.ledger.mem_kafka e).mp he
    exact ⟨d, rs, hd, hrs, hr⟩

/-- **A change is one event, however often it is published.** Over any sequence of
connections, failures and crashes, two entries of Redis or Kafka that stem from one record of
one message of the WAL differ in the commit time at most, and have one idempotency key. -/
theorem redelivered_same_event {tr : List (Slot × SlotAction)}
    (hrun : Run (Slot.step host) Slot.initial tr s) {e e' : Entry} {k : Nat}
    (he : e ∈ s.ingestor.redis ∨ e ∈ s.ingestor.kafka)
    (he' : e' ∈ s.ingestor.redis ∨ e' ∈ s.ingestor.kafka)
    (hk : s.sources[e.message]? = some k) (hk' : s.sources[e'.message]? = some k)
    (hindex : e'.index = e.index) (md5_16 : String → String) :
    SameChange e.record e'.record ∧
      compute_idempotency_key md5_16 e'.record = compute_idempotency_key md5_16 e.record := by
  have htraced : s.Traced host := Run.invariant (C := fun _ _ => True)
    (fun _ _ _ h _ hs => h.step hs) Slot.traced_initial hrun fun _ _ => trivial
  obtain ⟨d, rs, hd, hrs, hr⟩ := entry_record htraced he
  obtain ⟨d', rs', hd', hrs', hr'⟩ := entry_record htraced he'
  -- both deliveries are of message `k`
  obtain ⟨m, c, hm, rfl⟩ := htraced.from_wal _ k d hk hd
  obtain ⟨m', c', hm', rfl⟩ := htraced.from_wal _ k d' hk' hd'
  rw [hm, Option.some.injEq] at hm'
  subst hm'
  obtain ⟨payload, hpayload, hparse⟩ := Option.bind_eq_some_iff.mp hrs
  obtain ⟨payload', hpayload', hparse'⟩ := Option.bind_eq_some_iff.mp hrs'
  obtain rfl : payload = payload' := Option.some.inj (hpayload.symm.trans hpayload')
  obtain ⟨t', htime⟩ : ∃ t', parse_wal2json_v2 host c'.now_ms payload m.data_start
      = some (rs.map fun r => { r with commit_time := t' }) := parse_time hparse
  have hsame : SameChange e.record e'.record := by
    have hlist := htime.symm.trans hparse'
    rw [Option.some.injEq] at hlist
    rw [hindex, ← hlist, List.getElem?_map, hr, Option.map_some, Option.some.injEq] at hr'
    rw [← hr']
    rfl
  exact ⟨hsame, hsame.key_eq md5_16⟩

end

/-- The message whose Kafka call timed out is sent again five milliseconds later: Redis has
two entries of its change, with different commit times and the same key. -/
theorem redelivered_same_event_later :
    ∃ tr s e e', Run (Slot.step bareHost) Slot.initial tr s ∧ e ∈ s.ingestor.redis ∧
      e' ∈ s.ingestor.redis ∧ e.record.commit_time = 0 ∧ e'.record.commit_time = 5 ∧
      compute_idempotency_key md5Prefix e'.record = compute_idempotency_key md5Prefix e.record := by
  obtain ⟨s, hs, hsources, hredis⟩ : ∃ s, exec (Slot.step bareHost) Slot.initial
      (interrupted_actions ++ [.start, .deliver (.succeeding 5)]) = some s ∧
      s.sources = [0, 0] ∧
      s.ingestor.redis = [⟨0, 0, insertRecord "100" "7"⟩,
        ⟨1, 0, { insertRecord "100" "7" with commit_time := 5 }⟩] :=
    ⟨_, rfl, by decide, by decide⟩
  have hmem₀ : ⟨0, 0, insertRecord "100" "7"⟩ ∈ s.ingestor.redis := by
    rw [hredis]
    exact List.mem_cons_self ..
  have hmem₁ : ⟨1, 0, { insertRecord "100" "7" with commit_time := 5 }⟩ ∈ s.ingestor.redis := by
    rw [hredis]
    exact List.mem_cons_of_mem _ (List.mem_cons_self ..)
  have hrun := run_trace hs
  exact ⟨_, s, _, _, hrun, hmem₀, hmem₁, rfl, rfl,
    (redelivered_same_event hrun (Or.inl hmem₀) (Or.inl hmem₁) (by rw [hsources]; rfl)
      (by rw [hsources]; rfl) rfl md5Prefix).2⟩

end WalStream.Pipeline

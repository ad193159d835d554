/-
What a replay source hands to a worker, and the checkpoints a worker hands back.

`app/services/replay_router.py` identifies an event by a string: the entry id `ms-seq` for
the Redis stream, `partition:offset` for the Kafka topic. The two kinds of string are kept
apart here by their constructors. `last_processed_id` holds such a string, SQL `NULL`, or
the empty string that `job.last_processed_id or ""` writes.
-/
import WalStream.Proto

set_option autoImplicit false

namespace WalStream

open Lib

/-! ## Redis stream ids -/

/-- A Redis stream entry id `ms-seq`. -/
structure StreamId where
  ms : Nat
  seq : Nat
deriving DecidableEq, Repr

namespace StreamId

/-- Redis orders ids by time, then by sequence number. -/
def lt (a b : StreamId) : Prop := a.ms < b.ms ∨ (a.ms = b.ms ∧ a.seq < b.seq)

instance : LT StreamId := ⟨lt⟩

instance : LE StreamId := ⟨fun a b => ¬ lt b a⟩

instance (a b : StreamId) : Decidable (a < b) :=
  inferInstanceAs (Decidable (a.ms < b.ms ∨ (a.ms = b.ms ∧ a.seq < b.seq)))

instance (a b : StreamId) : Decidable (a ≤ b) :=
  inferInstanceAs (Decidable (¬ (b.ms < a.ms ∨ (b.ms = a.ms ∧ b.seq < a.seq))))

/-- The order, in terms of the two numbers. The lemmas below are proved from these two by
arithmetic and used by name, since ids have no order instance of Mathlib's. -/
theorem lt_def (a b : StreamId) : a < b ↔ a.ms < b.ms ∨ (a.ms = b.ms ∧ a.seq < b.seq) := Iff.rfl

theorem le_def (a b : StreamId) : a ≤ b ↔ ¬ (b.ms < a.ms ∨ (b.ms = a.ms ∧ b.seq < a.seq)) :=
  Iff.rfl

theorem le_refl (a : StreamId) : a ≤ a := by rw [le_def]; omega

theorem le_trans {a b c : StreamId} (hab : a ≤ b) (hbc : b ≤ c) : a ≤ c := by
  rw [le_def] at *; omega

theorem lt_of_le_of_lt {a b c : StreamId} (hab : a ≤ b) (hbc : b < c) : a < c := by
  rw [le_def] at hab; rw [lt_def] at *; omega

theorem lt_trans {a b c : StreamId} (hab : a < b) (hbc : b < c) : a < c := by
  rw [lt_def] at *; omega

theorem le_of_lt {a b : StreamId} (h : a < b) : a ≤ b := by
  rw [lt_def] at h; rw [le_def]; omega

theorem not_le {a b : StreamId} : ¬ a ≤ b ↔ b < a := by
  rw [le_def, lt_def]; omega

theorem not_lt {a b : StreamId} : ¬ a < b ↔ b ≤ a := Iff.rfl

theorem lt_irrefl (a : StreamId) : ¬ a < a := by rw [lt_def]; omega

theorem eq_of_le_of_le {a b : StreamId} (hab : a ≤ b) (hba : b ≤ a) : a = b := by
  rw [le_def] at *
  cases a; cases b
  simp only [mk.injEq]
  dsimp only at hab hba
  omega

/-- Ids in order have times in order. The end of a window is a time, so this is how a comparison
of ids becomes one of times. -/
theorem ms_le_of_le {a b : StreamId} (h : a ≤ b) : a.ms ≤ b.ms := by
  rw [le_def] at h; omega

end StreamId

/-! ## Replay windows -/

/-- The window of a replay job, in milliseconds since the epoch. Both ends belong to it. -/
structure Window where
  start_ms : Nat
  end_ms : Nat
deriving DecidableEq, Repr

/-- `t` lies in the window. -/
def Window.contains (w : Window) (t : Nat) : Prop := w.start_ms ≤ t ∧ t ≤ w.end_ms

instance (w : Window) (t : Nat) : Decidable (w.contains t) :=
  inferInstanceAs (Decidable (_ ∧ _))

/-! ## Message ids -/

/-- The `source_name()` of a replay source. -/
inductive SourceName
  | redis
  | kafka
deriving DecidableEq, Repr

/-- `ReplayEvent.message_id`: `ms-seq` or `partition:offset`. -/
inductive MessageId
  | redis (id : StreamId)
  | kafka (partition offset : Nat)
deriving DecidableEq, Repr

/-- The source the id is of. -/
def MessageId.source : MessageId → SourceName
  | .redis _ => .redis
  | .kafka _ _ => .kafka

/-- The id as text. -/
def MessageId.text : MessageId → String
  | .redis id => toString id.ms ++ "-" ++ toString id.seq
  | .kafka p o => toString p ++ ":" ++ toString o

/-- `a` comes before `b` in one Redis stream or in one Kafka partition. Events of
different partitions are not ordered. -/
def MessageId.before : MessageId → MessageId → Prop
  | .redis a, .redis b => a < b
  | .kafka p a, .kafka q b => p = q ∧ a < b
  | _, _ => False

instance (a b : MessageId) : Decidable (a.before b) := by
  cases a <;> cases b <;> unfold MessageId.before <;> infer_instance

/-- The message at `a` is the one at `b` or comes before it. -/
def AtOrBefore (a b : MessageId) : Prop := a = b ∨ a.before b

/-- Ids of different sources are not ordered. -/
theorem AtOrBefore.source_eq {a b : MessageId} (h : AtOrBefore a b) : a.source = b.source := by
  rcases h with rfl | h
  · rfl
  · cases a with
    | redis a =>
        cases b with
        | redis b => rfl
        | kafka q b => cases h
    | kafka p a =>
        cases b with
        | redis b => cases h
        | kafka q b => rfl

/-- In the stream the order is that of the ids, -/
theorem atOrBefore_redis {a b : StreamId} : AtOrBefore (.redis a) (.redis b) ↔ a ≤ b := by
  constructor
  · rintro (h | h)
    · cases h
      exact StreamId.le_refl _
    · exact StreamId.le_of_lt h
  · intro h
    by_cases hlt : a < b
    · exact Or.inr hlt
    · exact Or.inl (congrArg MessageId.redis
        (StreamId.eq_of_le_of_le h (StreamId.not_lt.mp hlt)))

/-- and in the topic that of the offsets of one partition. -/
theorem atOrBefore_kafka {p q a b : Nat} :
    AtOrBefore (.kafka p a) (.kafka q b) ↔ p = q ∧ a ≤ b := by
  constructor
  · rintro (h | ⟨hp, h⟩)
    · cases h
      exact ⟨rfl, Nat.le_refl _⟩
    · exact ⟨hp, Nat.le_of_lt h⟩
  · rintro ⟨rfl, h⟩
    rcases Nat.eq_or_lt_of_le h with rfl | hlt
    · exact Or.inl rfl
    · exact Or.inr ⟨rfl, hlt⟩

/-- `ReplayEvent`. The payload is the serialized `ChangeRecord`; the commit time, table
and operation of the event are read from it. -/
structure ReplayEvent where
  message_id : MessageId
  payload : ChangeRecord
deriving DecidableEq

namespace ReplayEvent

def commit_time_ms (e : ReplayEvent) : Int := e.payload.commit_time

def table (e : ReplayEvent) : String := e.payload.table

def operation (e : ReplayEvent) : String := e.payload.operation

end ReplayEvent

/-! ## Checkpoints -/

/-- The `last_processed_id` column: `NULL`, the empty string, or a message id. -/
inductive LastProcessedId
  | null
  | empty
  | id (m : MessageId)
deriving DecidableEq, Repr

namespace LastProcessedId

/-- `last_processed_id or ""`. -/
def orEmpty : LastProcessedId → LastProcessedId
  | .null => .empty
  | l => l

/-- The message id, if the string is neither missing nor empty. -/
def toMessageId? : LastProcessedId → Option MessageId
  | .id m => some m
  | _ => none

/-- `or ""` changes what is stored and not what is read from it. -/
@[simp] theorem toMessageId?_orEmpty (l : LastProcessedId) :
    l.orEmpty.toMessageId? = l.toMessageId? := by
  cases l <;> rfl

end LastProcessedId

/-- The `checkpoint` argument of `stream_events` when it is not `None` or empty: the text
`json.dumps` makes of the per-partition map, or a message id. -/
inductive Checkpoint
  | json (offsets : Dict Nat Nat)
  | id (m : MessageId)
deriving DecidableEq

/-- The messages a checkpoint covers: those at or before its message, or at or before the
offset it has for their partition. -/
def Checkpoint.Covers : Checkpoint → MessageId → Prop
  | .json offsets, .kafka p o => ∃ c, offsets.get? p = some c ∧ o ≤ c
  | .json _, .redis _ => False
  | .id m', m => AtOrBefore m m'

/-- The exception that ends a stream: a checkpoint text `_parse_checkpoint` does not
recognise, or one Redis refuses as a stream id. -/
inductive StreamError
  | valueError
  | responseError
deriving DecidableEq, Repr

/-- What one step of a `stream_events` generator does. -/
inductive StreamStep (τ : Type)
  /-- It went on working without yielding. -/
  | more (next : τ)
  /-- It yielded an event. -/
  | yield (event : ReplayEvent) (next : τ)
  /-- It returned: the `async for` over it ends. -/
  | done (next : τ)
  /-- It raised. -/
  | raise (error : StreamError)

end WalStream

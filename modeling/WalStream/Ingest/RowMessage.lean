/-
The row messages of wal2json format-version 2, and what the ingestor makes of them.

With `format-version` 2, which `Ingestor.start` requests, wal2json sends one JSON object
per row: the action, the table and the columns are its own members. `RowMessage` is that
object as the docstring of `parse_wal2json_v2` gives it.
-/
import WalStream.Ingest.Process

set_option autoImplicit false

namespace WalStream.Ingest

open Lib

/-! ## Row messages -/

/-- The action of a row message. -/
inductive RowAction
  | insert
  | update
  | delete
  | truncate
deriving DecidableEq, Repr

/-- The letter wal2json sends. -/
def RowAction.letter : RowAction → String
  | .insert => "I"
  | .update => "U"
  | .delete => "D"
  | .truncate => "T"

/-- An element of a `columns` or `identity` array. -/
structure Column where
  name : String
  type : String
  value : Json

/-- A row message; a missing array is `none`. -/
structure RowMessage where
  action : RowAction
  timestamp : String
  schema : String
  table : String
  columns : Option (List Column)
  identity : Option (List Column)

def Column.toJson (c : Column) : Json :=
  .obj [("name", .str c.name), ("type", .str c.type), ("value", c.value)]

/-- The payload of a row message. -/
def RowMessage.toJson (m : RowMessage) : Json :=
  .obj ([("action", .str m.action.letter), ("timestamp", .str m.timestamp),
      ("schema", .str m.schema), ("table", .str m.table)]
    ++ (m.columns.map fun cs => ("columns", Json.arr (cs.map Column.toJson))).toList
    ++ (m.identity.map fun cs => ("identity", Json.arr (cs.map Column.toJson))).toList)

/-! ## Completeness -/

/-- The values of a column list that are not null, as text. -/
def values_of (host : Host) (cs : Option (List Column)) : Dict String String :=
  Dict.ofPairs ((cs.getD []).filterMap fun c =>
    match c.value with
    | .null => none
    | v => some (c.name, v.pyStr host))

/-- The parser returns exactly one record, and it is that of the message. -/
def IngestedAs (host : Host) (now_ms : Int) (m : RowMessage) (lsn : Nat) : Prop :=
  ∃ r, parse_wal2json_v2 host now_ms m.toJson lsn = some [r] ∧
    r.operation = (ACTION_MAP.lookup m.action.letter).getD "" ∧
    r.table = m.schema ++ "." ++ m.table ∧
    r.new = values_of host m.columns ∧
    r.old = values_of host m.identity

/-- No member of a row message is named `change`: the loop that builds records has nothing
to visit. -/
theorem parse_row_message (host : Host) (now_ms : Int) (m : RowMessage) (lsn : Nat) :
    parse_wal2json_v2 host now_ms m.toJson lsn = some [] := by
  refine parse_no_change m.timestamp rfl (Json.lookup_eq_none fun member hm => ?_)
  simp only [List.mem_append, List.mem_cons, List.not_mem_nil, or_false, Option.mem_toList,
    Option.map_eq_some_iff] at hm
  rcases hm with ((rfl | rfl | rfl | rfl) | ⟨cs, _, rfl⟩) | ⟨cs, _, rfl⟩
  all_goals
    dsimp only
    decide

/-- **A row message is never ingested.** Whatever its action, its arrays and the clock,
the parser returns no record for it; and `process_message`, whose calls to the stores never
take place, acknowledges its position and returns `True` with both stores as they were. -/
theorem row_message_never_ingested (host : Host) (m : RowMessage) :
    (∀ (now_ms : Int) (lsn : Nat), ¬ IngestedAs host now_ms m lsn) ∧
    ∀ (s : Ingestor) (d : Delivery),
      process_message host s { d with payload := some m.toJson, send_feedback := .ok } =
        ({ s with
            delivered := s.delivered ++ [{ d with payload := some m.toJson, send_feedback := .ok }],
            feedback := s.feedback ++ [⟨d.data_start, s.delivered.length + 1⟩] }, true) := by
  constructor
  · rintro now_ms lsn ⟨r, hr, _⟩
    rw [parse_row_message] at hr
    cases hr
  · intro s d
    have hrecords : Delivery.records host
        { d with payload := some m.toJson, send_feedback := .ok } = some [] := by
      simp only [Delivery.records, Option.bind_some, parse_row_message]
    simp only [process_message, hrecords, publish_all, acknowledge, CallOutcome.done,
      CallOutcome.succeeded, if_true, List.length_append, List.length_singleton]

/-- The example message of the parser's docstring. -/
def docstringMessage : RowMessage :=
  { action := .insert,
    timestamp := "2024-01-15 10:30:00.123456+00",
    schema := "public",
    table := "events",
    columns := some [⟨"id", "integer", .int 1⟩, ⟨"name", "text", .str "test"⟩],
    identity := some [⟨"id", "integer", .int 1⟩] }

/-- The docstring's own example yields no record, and is acknowledged with nothing
published. -/
theorem docstringMessage_not_ingested :
    (∀ host now_ms lsn, ¬ IngestedAs host now_ms docstringMessage lsn) ∧
    (process_message bareHost .start { insertMessage 100 7 .ok .ok .ok with
        payload := some docstringMessage.toJson }).1.feedback = [⟨100, 1⟩] ∧
    (process_message bareHost .start { insertMessage 100 7 .ok .ok .ok with
        payload := some docstringMessage.toJson }).1.redis = [] := by
  refine ⟨?_, by decide, by decide⟩
  rintro host now_ms lsn ⟨r, hr, _⟩
  rw [parse_row_message] at hr
  cases hr

end WalStream.Ingest

/-
`parse_wal2json_v2`: from a decoded wal2json payload to `ChangeRecord`s.

The payload's `change` array is mapped record by record; every field of a change has a
fallback, and the column values come in two formats each. A value that is `None` is left
out of the maps.
-/
import WalStream.Ingest.Json
import WalStream.Lib.Lists
import Mathlib.Data.List.Basic

set_option autoImplicit false

namespace WalStream.Ingest

open Lib

/-! ## The commit time -/

/-- The commit timestamp as `fromisoformat` gets it: `T` for the blank, and without the
timezone, which follows a `+`, or a third `-` and is at most five characters long. -/
def naive_timestamp (timestamp : String) : String :=
  let ts := timestamp.toList.map fun c => if c = ' ' then 'T' else c
  if '+' ∈ ts then
    String.ofList (ts.takeWhile fun c => c ≠ '+')
  else if ts.count '-' > 2 then
    let zone := ts.reverse.takeWhile fun c => c ≠ '-'
    if zone.length ≤ 5 then String.ofList (ts.take (ts.length - zone.length - 1))
    else String.ofList ts
  else
    String.ofList ts

/-- The commit time of a payload, `now_ms` being the clock. -/
def commit_time_ms (host : Host) (now_ms : Int) (payload : Json) : Option Int := do
  let timestamp ← payload.getD "timestamp" (.str "")
  match timestamp with
  | .str s =>
      if s = "" then some now_ms
      else some ((host.timestamp_ms (naive_timestamp s)).getD now_ms)
  | v => if v.truthy then none else some now_ms

example : naive_timestamp "2024-01-15 10:30:00.123456+00" = "2024-01-15T10:30:00.123456" := by
  decide

example : naive_timestamp "2024-01-15 10:30:00-05:00" = "2024-01-15T10:30:00" := by decide

/-! ## The column maps -/

/-- `values[name] = str(value)`, unless the value is `None`. -/
def set_value (host : Host) (values : Dict String String) (name value : Json) :
    Option (Dict String String) :=
  match value, name with
  | .null, _ => some values
  | v, .str k => some (values.set k (v.pyStr host))
  | _, _ => none

/-- One element of a `columns` or `identity` array. -/
def set_column (host : Host) (values : Dict String String) (col : Json) :
    Option (Dict String String) := do
  let name ← col.getD "name" (.str "")
  let value ← col.getD "value" .null
  set_value host values name value

/-- The map of a `columns` or `identity` array. -/
def column_values (host : Host) (cols : Json) : Option (Dict String String) := do
  (← cols.iter).foldlM (set_column host) Dict.empty

/-- The map of an array of names and an array of values. -/
def zipped_values (host : Host) (names values : Json) : Option (Dict String String) := do
  ((← names.iter).zip (← values.iter)).foldlM (fun acc p => set_value host acc p.1 p.2) Dict.empty

/-- `new_values` of a change. -/
def new_values (host : Host) (change : Json) : Option (Dict String String) := do
  -- `columns` wins over the two parallel arrays when a change has both
  if change.has "columns" then
    column_values host (← change.getD "columns" (.arr []))
  else if change.has "columnnames" && change.has "columnvalues" then
    zipped_values host (← change.getD "columnnames" (.arr []))
      (← change.getD "columnvalues" (.arr []))
  else
    some Dict.empty

/-- `old_values` of a change. -/
def old_values (host : Host) (change : Json) : Option (Dict String String) := do
  if change.has "identity" then
    column_values host (← change.getD "identity" (.arr []))
  else if change.has "oldkeys" then
    let old_keys ← change.getD "oldkeys" (.obj [])
    zipped_values host (← old_keys.getD "keynames" (.arr []))
      (← old_keys.getD "keyvalues" (.arr []))
  else
    some Dict.empty

/-! ## The parser -/

/-- `ACTION_MAP`. -/
def ACTION_MAP : List (String × String) :=
  [("I", "INSERT"), ("U", "UPDATE"), ("D", "DELETE"), ("T", "TRUNCATE")]

/-- `ACTION_MAP.get(action, action)` as the text of the `operation` field. A message
constructor takes `None` as unset. -/
def operation_of : Json → Option String
  | .str action => some ((ACTION_MAP.lookup action).getD action)
  | .null => some ""
  | _ => none

/-- The body of the loop over the changes. -/
def parse_change (host : Host) (lsn : Nat) (commit_time : Int) (change : Json) :
    Option ChangeRecord := do
  -- the format-version-1 name of the member first, then the format-version-2 name
  let action ← change.getD "kind" (← change.getD "action" (.str ""))
  let schema ← change.getD "schema" (.str "public")
  let table ← change.getD "table" (.str "unknown")
  let new ← new_values host change
  let old ← old_values host change
  let operation ← operation_of action
  -- all changes of a message get its position and its time
  return {
    lsn := toString lsn,
    commit_time := commit_time,
    table := schema.pyStr host ++ "." ++ table.pyStr host,
    operation := operation,
    old := old,
    new := new }

/-- `parse_wal2json_v2`, at the clock `now_ms`; `none` when it raises. -/
def parse_wal2json_v2 (host : Host) (now_ms : Int) (payload : Json) (lsn : Nat) :
    Option (List ChangeRecord) := do
  let commit_time ← commit_time_ms host now_ms payload
  -- a payload without the member has no changes
  let changes ← payload.getD "change" (.arr [])
  (← changes.iter).mapM (parse_change host lsn commit_time)

/-! ## What the parser returns -/

variable {host : Host} {now_ms : Int} {payload : Json} {lsn : Nat} {records : List ChangeRecord}

theorem parse_change_lsn {commit_time : Int} {change : Json} {r : ChangeRecord}
    (h : parse_change host lsn commit_time change = some r) : r.lsn = toString lsn := by
  simp only [parse_change, Option.bind_eq_bind, Option.bind_eq_some_iff, Option.pure_def,
    Option.some.injEq] at h
  obtain ⟨_, _, _, _, _, _, _, _, _, _, _, _, _, _, rfl⟩ := h
  rfl

/-- Every record of a payload carries the message's LSN. -/
theorem parse_lsn (h : parse_wal2json_v2 host now_ms payload lsn = some records) :
    ∀ r ∈ records, r.lsn = toString lsn := by
  simp only [parse_wal2json_v2, Option.bind_eq_bind, Option.bind_eq_some_iff] at h
  obtain ⟨commit_time, _, changes, _, items, _, hmap⟩ := h
  intro r hr
  obtain ⟨change, _, hchange⟩ := mem_of_mapM_some hmap hr
  exact parse_change_lsn hchange

/-- An object with a text timestamp and no `change` member has no record. -/
theorem parse_no_change {members : List (String × Json)} (ts : String)
    (hts : (Json.lookup members "timestamp").getD (.str "") = .str ts)
    (hchange : Json.lookup members "change" = none) :
    parse_wal2json_v2 host now_ms (.obj members) lsn = some [] := by
  have htime : ∃ t, commit_time_ms host now_ms (.obj members) = some t := by
    simp only [commit_time_ms, Json.getD_obj, hts, Option.bind_eq_bind, Option.bind_some]
    split
    · exact ⟨_, rfl⟩
    · exact ⟨_, rfl⟩
  obtain ⟨t, ht⟩ := htime
  simp only [parse_wal2json_v2, ht, Json.getD_obj, hchange, Option.bind_eq_bind,
    Option.bind_some, Option.getD_none, Json.iter_arr, List.mapM_nil, Option.pure_def]

end WalStream.Ingest

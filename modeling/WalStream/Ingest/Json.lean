/-
The Python values `json.loads` returns, and what the ingestor's parser does with them.

A decoded value is a `Json`. The operations are the Python ones: `.get` with a default,
iteration, truth value, `str`. An operation that raises on a value returns `none`; which
exception it is does not matter to any caller, since `process_message` answers every one
of them the same way.
-/
import WalStream.Proto

set_option autoImplicit false

namespace WalStream.Ingest

open Lib

/-! ## Decoded values -/

/-- A decoded JSON value. A float is kept as the text `repr` gives it; the members of an
object are in their order, each key once. -/
inductive Json
  | null
  | bool (b : Bool)
  | int (n : Int)
  | float (repr : String)
  | str (s : String)
  | arr (items : List Json)
  | obj (members : List (String × Json))

/-- What the ingestor relies on from the host: Python's clock arithmetic and its text form
of containers, and the environment. -/
structure Host where
  /-- `int(datetime.fromisoformat(ts).timestamp() * 1000)`; `none` for a `ValueError`. -/
  timestamp_ms : String → Option Int
  /-- `str` of a list or of a dictionary. -/
  container_str : Json → String
  /-- The environment's `REDIS_STREAM_MAXLEN`. -/
  redis_stream_maxlen : Nat := 100000

/-- A host for payloads without a timestamp and without nested values. -/
def bareHost : Host := { timestamp_ms := fun _ => none, container_str := fun _ => "{}" }

namespace Json

/-- The member of a key. -/
def lookup (members : List (String × Json)) (key : String) : Option Json :=
  (members.find? fun m => decide (m.1 = key)).map Prod.snd

/-- `value.get(key, default)`. Only a dictionary has `.get`. -/
def getD (value : Json) (key : String) (default : Json) : Option Json :=
  match value with
  | .obj members => some ((lookup members key).getD default)
  | _ => none

/-- `key in value`, for a dictionary. -/
def has (value : Json) (key : String) : Bool :=
  match value with
  | .obj members => (lookup members key).isSome
  | _ => false

/-- What a `for` loop over the value visits. A dictionary gives its keys, a string its
characters. -/
def iter : Json → Option (List Json)
  | .arr items => some items
  | .obj members => some (members.map fun m => .str m.1)
  | .str s => some (s.toList.map fun c => .str (String.singleton c))
  | _ => none

/-- The truth value, for a value that is not a string. -/
def truthy : Json → Bool
  | .null => false
  | .bool b => b
  | .int n => decide (n ≠ 0)
  | .float repr => decide (repr ≠ "0.0" ∧ repr ≠ "-0.0")
  | .str s => decide (s ≠ "")
  | .arr items => !items.isEmpty
  | .obj members => !members.isEmpty

/-- `str(value)`. -/
def pyStr (host : Host) : Json → String
  | .null => "None"
  | .bool true => "True"
  | .bool false => "False"
  | .int n => toString n
  | .float repr => repr
  | .str s => s
  | v => host.container_str v

/-! ## Reading objects -/

@[simp] theorem getD_obj (members : List (String × Json)) (key : String) (default : Json) :
    (obj members).getD key default = some ((lookup members key).getD default) := rfl

@[simp] theorem iter_arr (items : List Json) : (arr items).iter = some items := rfl

theorem lookup_eq_none {members : List (String × Json)} {key : String}
    (h : ∀ m ∈ members, m.1 ≠ key) : lookup members key = none := by
  rw [lookup, Option.map_eq_none_iff, List.find?_eq_none]
  intro m hm
  simpa using h m hm

end Json

end WalStream.Ingest

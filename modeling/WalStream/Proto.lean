/-
The protobuf message every component exchanges: `ChangeRecord`.

`old` and `new` are `map<string, string>` fields. They are dictionaries here, so the
order in which a reader enumerates them is available where a result depends on it, and no
column can occur twice.
-/
import WalStream.Lib.Dict

set_option autoImplicit false

namespace WalStream

open Lib

/-- `walstream.v1.ChangeRecord`. -/
structure ChangeRecord where
  /-- Log sequence number, as text. -/
  lsn : String
  /-- Commit time, in milliseconds since the epoch. -/
  commit_time : Int
  /-- `schema.table`. -/
  table : String
  /-- `INSERT`, `UPDATE`, `DELETE` or `TRUNCATE` by convention; the field is a string. -/
  operation : String
  /-- Previous row values (`UPDATE`, `DELETE`). -/
  old : Dict String String
  /-- New row values (`INSERT`, `UPDATE`). -/
  new : Dict String String
deriving DecidableEq

/-- A record to run the model on, told apart by its `lsn`. -/
def sampleRecord (lsn : String) : ChangeRecord :=
  { lsn := lsn, commit_time := 0, table := "public.t", operation := "INSERT",
    old := Dict.empty, new := Dict.empty.set "id" lsn }

end WalStream

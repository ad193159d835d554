/-
`PostgreSQLTargetApplier`: from a `ChangeRecord` to a statement, and its effect.

A statement keeps the texts the applier puts into the query: the table as the record has
it, every column in double quotes, and the values as parameters. What those texts mean to
PostgreSQL is a `Catalog`: which relation and columns they name, and which value of the
column's type a parameter denotes. The statements then run on a table with a primary key.
-/
import WalStream.Lib.Table
import WalStream.Proto

set_option autoImplicit false

namespace WalStream.Replayer

open Lib

/-! ## The generated statements -/

/-- A generated statement. Columns are quoted identifiers; each comes with its parameter. -/
inductive Statement
  /-- `INSERT INTO table (…) VALUES (…) ON CONFLICT DO NOTHING` -/
  | insert (table : String) (cells : List (String × String))
  /-- `UPDATE table SET … WHERE … AND …` -/
  | update (table : String) (sets wheres : List (String × String))
  /-- `DELETE FROM table WHERE … AND …` -/
  | delete (table : String) (wheres : List (String × String))
  /-- `TRUNCATE TABLE table` -/
  | truncate (table : String)
deriving DecidableEq

/-- `f'"{c}"'` -/
def quoted (c : String) : String := "\"" ++ c ++ "\""

/-- The columns of a map, quoted, with their values. -/
def quoted_cells (values : Dict String String) : List (String × String) :=
  values.entries.map fun e => (quoted e.1, e.2)

/-- `_apply_insert`: nothing without new values. -/
def apply_insert (event : ChangeRecord) : Option Statement :=
  if event.new.isEmpty then none
  else some (.insert event.table (quoted_cells event.new))

/-- `_apply_update`: nothing without both maps. -/
def apply_update (event : ChangeRecord) : Option Statement :=
  -- without an identity there is no `WHERE` clause to build
  if event.new.isEmpty || event.old.isEmpty then none
  else some (.update event.table (quoted_cells event.new) (quoted_cells event.old))

/-- `_apply_delete`: nothing without old values. -/
def apply_delete (event : ChangeRecord) : Option Statement :=
  if event.old.isEmpty then none
  else some (.delete event.table (quoted_cells event.old))

/-- `_apply_truncate`. -/
def apply_truncate (event : ChangeRecord) : Option Statement :=
  some (.truncate event.table)

/-! ## Their execution -/

variable {ι : Type} [DecidableEq ι] [Fintype ι] {V : ι → Type} [∀ i, DecidableEq (V i)]
variable {σ : TableSchema V}

/-- What the texts of a statement mean to the target database. -/
structure Catalog (V : ι → Type) where
  /-- The text names the target table. -/
  table : String → Bool
  /-- The column of the target table a quoted identifier names. -/
  column : String → Option ι
  /-- The value a text parameter denotes in a column of that type. -/
  denote : (i : ι) → String → Option (V i)

/-- A column identifier and its parameter, as an assignment. -/
def Catalog.cell (cat : Catalog V) (c : String × String) : Option (Σ i, V i) := do
  let i ← cat.column c.1
  let x ← cat.denote i c.2
  return ⟨i, x⟩

/-- `conn.execute`; `none` if PostgreSQL reports an error. -/
def execute (cat : Catalog V) (t : Table σ) : Statement → Option (Table σ)
  | .insert table cells =>
      if cat.table table then do
        t.insertIgnore (← cells.mapM cat.cell)
      else none
  | .update table sets wheres =>
      if cat.table table then do
        t.updateWhere (← sets.mapM cat.cell) (← wheres.mapM cat.cell)
      else none
  | .delete table wheres =>
      if cat.table table then do
        return t.deleteWhere (← wheres.mapM cat.cell)
      else none
  | .truncate table => if cat.table table then some (.truncate σ) else none

/-- Run the statement, if there is one, and answer whether it did not fail. -/
def run (cat : Catalog V) (t : Table σ) : Option Statement → Table σ × Bool
  | none => (t, true)
  | some statement =>
      match execute cat t statement with
      -- an exception is logged and answered `False`
      | some t' => (t', true)
      | none => (t, false)

/-- `PostgreSQLTargetApplier.apply`. -/
def apply (cat : Catalog V) (t : Table σ) (event : ChangeRecord) : Table σ × Bool :=
  if event.operation = "INSERT" then run cat t (apply_insert event)
  else if event.operation = "UPDATE" then run cat t (apply_update event)
  else if event.operation = "DELETE" then run cat t (apply_delete event)
  else if event.operation = "TRUNCATE" then run cat t (apply_truncate event)
  -- an operation without a handler
  else (t, false)

/-- Apply records in order: the final table and every answer. -/
def apply_all (cat : Catalog V) (t : Table σ) : List ChangeRecord → Table σ × List Bool
  | [] => (t, [])
  | event :: events =>
      let (t', ok) := apply cat t event
      let (t'', oks) := apply_all cat t' events
      (t'', ok :: oks)

end WalStream.Replayer

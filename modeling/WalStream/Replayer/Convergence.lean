/-
Change data capture from one table to another: encode, parse, apply.

A change of a source table is encoded as the change object `parse_wal2json_v2` reads, the
parser makes a `ChangeRecord` of it, and the applier runs a statement on the target. What
the parser leaves out (a column whose new value is `NULL`) the statement does not mention:
an omitted column takes its default on `INSERT` and keeps its value on `UPDATE`. The
target follows the source exactly as long as that makes no difference.
-/
import WalStream.Ingest.Parse
import WalStream.Replayer.Applier

set_option autoImplicit false

namespace WalStream.Replayer

open Lib Ingest

/-! ## The change objects

What the ingestor makes of a row operation, as text. `Denotes` says how the texts of a table
stand for its names and values; under it the way from the operation to the record and back can
be followed. -/

variable {n : Nat} {V : Fin n → Type} {σ : TableSchema V}

/-- How a source table appears in the replication stream. -/
structure SourceTable (V : Fin n → Type) where
  schema : String
  table : String
  /-- The name of a column. -/
  name : Fin n → String
  /-- The type of a column, as wal2json prints it. -/
  type : Fin n → String
  /-- A column value as JSON. -/
  encode : (i : Fin n) → V i → Json

namespace SourceTable

variable (src : SourceTable V)

/-- The element of a column array for column `i` of the row. -/
def column_json (r : Row V) (i : Fin n) : Json :=
  .obj [("name", .str (src.name i)), ("type", .str (src.type i)),
    ("value", match r i with
      | some x => src.encode i x
      | none => .null)]

/-- All columns of the row. -/
def columns_json (r : Row V) : Json := .arr ((List.finRange n).map (src.column_json r))

/-- The key columns, in column order. -/
def key_columns (σ : TableSchema V) : List (Fin n) :=
  (List.finRange n).filter fun i => decide (i ∈ σ.key)

/-- The key columns of the row. -/
def identity_json (σ : TableSchema V) (r : Row V) : Json :=
  .arr ((key_columns σ).map (src.column_json r))

/-- The change object of a row operation. -/
def change_json (σ : TableSchema V) : RowOp V → Json
  | .insert new => .obj [("kind", .str "I"), ("schema", .str src.schema),
      ("table", .str src.table), ("columns", src.columns_json new)]
  -- the identity is the key of the old row, so a change of the key carries both keys
  | .update old new => .obj [("kind", .str "U"), ("schema", .str src.schema),
      ("table", .str src.table), ("columns", src.columns_json new),
      ("identity", src.identity_json σ old)]
  | .delete old => .obj [("kind", .str "D"), ("schema", .str src.schema),
      ("table", .str src.table), ("identity", src.identity_json σ old)]
  | .truncate => .obj [("kind", .str "T"), ("schema", .str src.schema),
      ("table", .str src.table)]

end SourceTable

/-- A source operation with the position and the time it is parsed at. -/
structure Change (V : Fin n → Type) where
  op : RowOp V
  lsn : Nat
  now_ms : Int

/-- Encode and parse the changes, one payload each. -/
def records_of (host : Host) (src : SourceTable V) (σ : TableSchema V) :
    List (Change V) → Option (List ChangeRecord)
  | [] => some []
  | c :: cs => do
      let records ← parse_wal2json_v2 host c.now_ms
        (.obj [("change", .arr [src.change_json σ c.op])]) c.lsn
      return records ++ (← records_of host src σ cs)

/-- The target database reads the texts of the records as the source means them: the table
and column texts name the replicated table and its columns, and the text of a value, which
is never JSON null, denotes that value. -/
structure Denotes (host : Host) (src : SourceTable V) (cat : Catalog V) : Prop where
  name_injective : Function.Injective src.name
  table : cat.table (src.schema ++ "." ++ src.table) = true
  column : ∀ i, cat.column (quoted (src.name i)) = some i
  encode_ne_null : ∀ i x, src.encode i x ≠ .null
  denote : ∀ i x, cat.denote i ((src.encode i x).pyStr host) = some x

/-- The operation gives `NULL` only where leaving the column out comes to the same: to a
column whose default is `NULL`, or that was `NULL` before. -/
def NullsKept (σ : TableSchema V) : RowOp V → Prop
  | .insert new => ∀ i, new i = none → σ.dflt i = none
  | .update old new => ∀ i, new i = none → old i = none
  | .delete _ => True
  | .truncate => True

instance (σ : TableSchema V) (op : RowOp V) : Decidable (NullsKept σ op) :=
  match op with
  | .insert new => inferInstanceAs (Decidable (∀ i, new i = none → σ.dflt i = none))
  | .update old new => inferInstanceAs (Decidable (∀ i, new i = none → old i = none))
  | .delete _ => .isTrue trivial
  | .truncate => .isTrue trivial

/-! ## Parsing a change

The record of each operation, from the change object. Nulls are lost here: the column maps have
no entry for them. -/

variable {host : Host} {src : SourceTable V} {cat : Catalog V}

/-- The texts of the non-null values of the columns `is`. -/
def texts (host : Host) (src : SourceTable V) (r : Row V) (is : List (Fin n)) :
    List (String × String) :=
  is.filterMap fun i => (r i).map fun x => (src.name i, (src.encode i x).pyStr host)

theorem map_fst_texts_nodup (h : Function.Injective src.name) (r : Row V) {is : List (Fin n)}
    (hnodup : is.Nodup) : ((texts host src r is).map Prod.fst).Nodup := by
  have hsub : ((texts host src r is).map Prod.fst).Sublist (is.map src.name) := by
    -- on the columns, whose names are the keys of the map
    clear hnodup
    induction is with
    | nil => exact List.Sublist.refl _
    | cons i is ih =>
        cases hx : r i with
        | none => simpa [texts, hx] using ih.cons (src.name i)
        | some x => simpa [texts, hx] using ih.cons_cons (src.name i)
  exact hsub.nodup (hnodup.map h)

theorem set_value_of_ne_null {values : Dict String String} {k : String} {v : Json}
    (h : v ≠ .null) : set_value host values (.str k) v = some (values.set k (v.pyStr host)) := by
  cases v with
  | null => exact absurd rfl h
  | bool b => rfl
  | int m => rfl
  | float repr => rfl
  | str s => rfl
  | arr items => rfl
  | obj members => rfl

/-- The loop over a column array sets the texts one after the other. -/
theorem foldlM_set_column (h : ∀ i x, src.encode i x ≠ .null) (r : Row V) (is : List (Fin n))
    (values : Dict String String) :
    (is.map (src.column_json r)).foldlM (set_column host) values
      = some ((texts host src r is).foldl (fun d p => d.set p.1 p.2) values) := by
  induction is generalizing values with
  | nil => rfl
  | cons i is ih =>
      rw [List.map_cons, List.foldlM_cons]
      cases hx : r i with
      | none =>
          -- a null column is left out of the map
          have hset : set_column host values (src.column_json r i) = some values := by
            simp [set_column, SourceTable.column_json, hx, Json.lookup, set_value]
          rw [hset, Option.bind_eq_bind, Option.bind_some, ih]
          simp [texts, hx]
      | some x =>
          have hset : set_column host values (src.column_json r i)
              = some (values.set (src.name i) ((src.encode i x).pyStr host)) := by
            have hval : set_value host values (.str (src.name i)) (src.encode i x)
                = some (values.set (src.name i) ((src.encode i x).pyStr host)) :=
              set_value_of_ne_null (h i x)
            simp [set_column, SourceTable.column_json, hx, Json.lookup, hval]
          rw [hset, Option.bind_eq_bind, Option.bind_some, ih]
          simp [texts, hx]

/-- The map of a column array is the map of its texts. -/
theorem column_values_eq (h : ∀ i x, src.encode i x ≠ .null) (r : Row V) (is : List (Fin n)) :
    column_values host (.arr (is.map (src.column_json r)))
      = some (Dict.ofPairs (texts host src r is)) := by
  simp only [column_values, Json.iter_arr, Option.bind_eq_bind, Option.bind_some]
  exact foldlM_set_column h r is Dict.empty

/-- The record of a row operation. -/
def record_of (host : Host) (src : SourceTable V) (σ : TableSchema V) (c : Change V)
    (commit_time : Int) : ChangeRecord :=
  { lsn := toString c.lsn,
    commit_time := commit_time,
    table := src.schema ++ "." ++ src.table,
    operation := match c.op with
      | .insert _ => "INSERT"
      | .update _ _ => "UPDATE"
      | .delete _ => "DELETE"
      | .truncate => "TRUNCATE",
    old := match c.op with
      | .update old _ => Dict.ofPairs (texts host src old (SourceTable.key_columns σ))
      | .delete old => Dict.ofPairs (texts host src old (SourceTable.key_columns σ))
      | _ => Dict.empty,
    new := match c.op with
      | .insert new => Dict.ofPairs (texts host src new (List.finRange n))
      | .update _ new => Dict.ofPairs (texts host src new (List.finRange n))
      | _ => Dict.empty }

/-- **Parsing a change object gives its record**, and only that. -/
theorem parse_change_json (h : ∀ i x, src.encode i x ≠ .null) (c : Change V) :
    parse_wal2json_v2 host c.now_ms (.obj [("change", .arr [src.change_json σ c.op])]) c.lsn
      = some [record_of host src σ c c.now_ms] := by
  obtain ⟨op, lsn, now_ms⟩ := c
  have hcols : ∀ r is, column_values host (.arr (is.map (src.column_json r)))
      = some (Dict.ofPairs (texts host src r is)) := fun r is => column_values_eq h r is
  cases op with
  | insert new =>
      simp [parse_wal2json_v2, commit_time_ms, Json.lookup, parse_change, new_values, old_values,
        Json.has, SourceTable.change_json, SourceTable.columns_json, hcols, operation_of,
        ACTION_MAP, List.lookup_cons, Json.pyStr, record_of]
  | update old new =>
      simp [parse_wal2json_v2, commit_time_ms, Json.lookup, parse_change, new_values, old_values,
        Json.has, SourceTable.change_json, SourceTable.columns_json, SourceTable.identity_json,
        hcols, operation_of, ACTION_MAP, List.lookup_cons, Json.pyStr, record_of]
  | delete old =>
      simp [parse_wal2json_v2, commit_time_ms, Json.lookup, parse_change, new_values, old_values,
        Json.has, SourceTable.change_json, SourceTable.identity_json, hcols, operation_of,
        ACTION_MAP, List.lookup_cons, Json.pyStr, record_of]
  | truncate =>
      simp [parse_wal2json_v2, commit_time_ms, Json.lookup, parse_change, new_values, old_values,
        Json.has, SourceTable.change_json, operation_of, ACTION_MAP, List.lookup_cons, Json.pyStr,
        record_of]

/-! ## Applying a change

The statement of each record does the work of its operation, by `Lib.Table`. An `UPDATE` sets
the columns that are not null, and so it does the work of an operation that makes no value null. -/

/-- The applier's quoted cells resolve to the assignments of the row. -/
theorem mapM_cell_texts (h : Denotes host src cat) (r : Row V) (is : List (Fin n)) :
    ((texts host src r is).map fun e => (quoted e.1, e.2)).mapM cat.cell
      = some (cells_of r is) := by
  induction is with
  | nil => rfl
  | cons i is ih =>
      cases hx : r i with
      | none =>
          have htexts : texts host src r (i :: is) = texts host src r is := by
            simp [texts, hx]
          have hcells : cells_of r (i :: is) = cells_of r is := by simp [cells_of, hx]
          rw [htexts, hcells, ih]
      | some x =>
          have htexts : texts host src r (i :: is)
              = (src.name i, (src.encode i x).pyStr host) :: texts host src r is := by
            simp [texts, hx]
          have hcells : cells_of r (i :: is) = ⟨i, x⟩ :: cells_of r is := by
            simp [cells_of, hx]
          have hcell : cat.cell (quoted (src.name i), (src.encode i x).pyStr host)
              = some ⟨i, x⟩ := by
            simp [Catalog.cell, h.column, h.denote]
          rw [htexts, hcells, List.map_cons, List.mapM_cons, hcell, Option.bind_eq_bind,
            Option.bind_some, ih]
          rfl

theorem mapM_cell_quoted_cells (h : Denotes host src cat) (r : Row V) {is : List (Fin n)}
    (hnodup : is.Nodup) :
    (quoted_cells (Dict.ofPairs (texts host src r is))).mapM cat.cell = some (cells_of r is) := by
  rw [quoted_cells, Dict.entries_ofPairs_of_nodup (map_fst_texts_nodup h.name_injective r hnodup)]
  exact mapM_cell_texts h r is

/-- A row with a complete key has a text for it. -/
theorem isEmpty_texts (hname : Function.Injective src.name) {r : Row V} {is : List (Fin n)}
    (hnodup : is.Nodup) (hkey : σ.KeyNotNull r) (his : ∀ i ∈ σ.key, i ∈ is) :
    (Dict.ofPairs (texts host src r is)).isEmpty = false := by
  obtain ⟨i, hi⟩ := σ.key_nonempty
  obtain ⟨x, hx⟩ := Option.ne_none_iff_exists'.mp (hkey i hi)
  have hmem : (src.name i, (src.encode i x).pyStr host) ∈ texts host src r is := by
    rw [texts, List.mem_filterMap]
    exact ⟨i, his i hi, by simp [hx]⟩
  rw [Dict.isEmpty, Dict.entries_ofPairs_of_nodup (map_fst_texts_nodup hname r hnodup),
    List.isEmpty_eq_false_iff]
  exact List.ne_nil_of_mem hmem

theorem nodup_key_columns (σ : TableSchema V) : (SourceTable.key_columns σ).Nodup :=
  (List.nodup_finRange n).filter _

theorem mem_key_columns {i : Fin n} : i ∈ SourceTable.key_columns σ ↔ i ∈ σ.key := by
  simp [SourceTable.key_columns]

variable [∀ i, DecidableEq (V i)]

/-- The `WHERE` clause of the identity columns selects by key. -/
theorem satisfies_key_columns {old : Row V} (hkey : σ.KeyNotNull old) (r : Row V) :
    satisfies (cells_of old (SourceTable.key_columns σ)) r = true ↔ σ.SameKey old r := by
  rw [satisfies_cells_of_iff fun i hi => hkey i (mem_key_columns.mp hi)]
  exact ⟨fun h i hi => h i (mem_key_columns.mpr hi), fun h i hi => h i (mem_key_columns.mp hi)⟩

/-- **One change.** Where the source performs the operation, the applier succeeds on its
record and the target becomes what the source becomes. -/
theorem apply_record_of (h : Denotes host src cat) {t t' : Table σ} {c : Change V}
    (hnulls : NullsKept σ c.op) (hstep : t.step c.op = some t') (commit_time : Int) :
    apply cat t (record_of host src σ c commit_time) = (t', true) := by
  obtain ⟨op, lsn, now_ms⟩ := c
  have hall : ∀ i, i ∈ List.finRange n := List.mem_finRange
  have hnodup : ∀ r : Row V, ((cells_of r (List.finRange n)).map Sigma.fst).Nodup := fun r =>
    (map_fst_cells_of_sublist r _).nodup (List.nodup_finRange n)
  cases op with
  | insert new =>
      have hempty : (Dict.ofPairs (texts host src new (List.finRange n))).isEmpty = false :=
        isEmpty_texts h.name_injective (List.nodup_finRange n) (Table.keyNotNull_of_insert hstep)
          fun i _ => hall i
      -- a column left out takes its default, which is what the row has there
      have hins : t.insertIgnore (cells_of new (List.finRange n)) = some t' :=
        Table.insertIgnore_of_step (hnodup new) (assign_cells_of new σ.dflt hall hnulls) hstep
      simp [apply, record_of, apply_insert, hempty, run, execute, h.table,
        mapM_cell_quoted_cells h new (List.nodup_finRange n), hins]
  | update old new =>
      have hkey := Table.keyNotNull_of_update hstep
      have hnew : (Dict.ofPairs (texts host src new (List.finRange n))).isEmpty = false :=
        isEmpty_texts h.name_injective (List.nodup_finRange n)
          (Table.keyNotNull_new_of_update hstep) fun i _ => hall i
      have hold : (Dict.ofPairs (texts host src old (SourceTable.key_columns σ))).isEmpty
          = false :=
        isEmpty_texts h.name_injective (nodup_key_columns σ) hkey
          fun i hi => mem_key_columns.mpr hi
      -- a column left out keeps its value, which is what the row has there
      have hupd : t.updateWhere (cells_of new (List.finRange n))
          (cells_of old (SourceTable.key_columns σ)) = some t' :=
        Table.updateWhere_of_step (hnodup new) (assign_cells_of new old hall hnulls)
          (satisfies_key_columns hkey) hstep
      simp [apply, record_of, apply_update, hnew, hold, run, execute, h.table,
        mapM_cell_quoted_cells h new (List.nodup_finRange n),
        mapM_cell_quoted_cells h old (nodup_key_columns σ), hupd]
  | delete old =>
      have hkey := Table.keyNotNull_of_delete hstep
      have hold : (Dict.ofPairs (texts host src old (SourceTable.key_columns σ))).isEmpty
          = false :=
        isEmpty_texts h.name_injective (nodup_key_columns σ) hkey
          fun i hi => mem_key_columns.mpr hi
      have hdel : t.deleteWhere (cells_of old (SourceTable.key_columns σ)) = t' :=
        Table.deleteWhere_of_step (satisfies_key_columns hkey) hstep
      simp [apply, record_of, apply_delete, hold, run, execute, h.table,
        mapM_cell_quoted_cells h old (nodup_key_columns σ), hdel]
  | truncate =>
      rw [Table.step, Option.some.injEq] at hstep
      simp [apply, record_of, apply_truncate, run, execute, h.table, hstep]

/-! ## Convergence

One operation after the other. -/

/-- **Replication converges.** Over every sequence of operations the source performs from
`t`, as long as they give `NULL` only where leaving the column out comes to the same,
every record parses, every `apply` succeeds, and the target, started equal to the source,
ends equal to it. -/
theorem replication_converges (h : Denotes host src cat) (t t' : Table σ)
    (changes : List (Change V)) (hnulls : ∀ c ∈ changes, NullsKept σ c.op)
    (hsource : t.steps (changes.map Change.op) = some t') :
    ∃ records, records_of host src σ changes = some records ∧
      apply_all cat t records = (t', List.replicate changes.length true) := by
  -- operation by operation, source and target in step
  induction changes generalizing t with
  | nil =>
      rw [List.map_nil, Table.steps, Option.some.injEq] at hsource
      exact ⟨[], rfl, by rw [apply_all, hsource]; rfl⟩
  | cons c changes ih =>
      rw [List.map_cons, Table.steps, Option.bind_eq_some_iff] at hsource
      obtain ⟨t₁, hstep, hrest⟩ := hsource
      obtain ⟨records, hrecords, happly⟩ :=
        ih t₁ (fun c' hc' => hnulls c' (List.mem_cons_of_mem _ hc')) hrest
      refine ⟨record_of host src σ c c.now_ms :: records, ?_, ?_⟩
      · simp [records_of, parse_change_json h.encode_ne_null c, hrecords]
      · rw [apply_all, apply_record_of h (hnulls c (List.mem_cons_self ..)) hstep]
        dsimp only
        rw [happly]
        rfl

/-! ### A table of two text columns -/

/-- `public.t (id text PRIMARY KEY, note text)`. -/
def noteSchema : TableSchema fun _ : Fin 2 => String :=
  { key := {0}, key_nonempty := ⟨0, by decide⟩, dflt := fun _ => none }

def noteSource : SourceTable fun _ : Fin 2 => String :=
  { schema := "public",
    table := "t",
    name := fun i => if i = 0 then "id" else "note",
    type := fun _ => "text",
    encode := fun _ text => .str text }

def noteCatalog : Catalog fun _ : Fin 2 => String :=
  { table := fun text => decide (text = "public.t"),
    column := fun text =>
      if text = "\"id\"" then some 0 else if text = "\"note\"" then some 1 else none,
    denote := fun _ text => some text }

def noteRow (id : String) (note : Option String) : Row fun _ : Fin 2 => String :=
  fun i => if i = 0 then some id else note

theorem note_denotes : Denotes bareHost noteSource noteCatalog :=
  { name_injective := by decide,
    table := by decide,
    column := by decide,
    encode_ne_null := fun _ _ h => by contradiction,
    denote := fun _ _ => rfl }

/-- Insert a row, change its note, and change its key. -/
theorem replication_converges_note :
    ∃ records, records_of bareHost noteSource noteSchema
        [⟨.insert (noteRow "a" (some "x")), 100, 0⟩,
          ⟨.update (noteRow "a" (some "x")) (noteRow "a" (some "y")), 101, 0⟩,
          ⟨.update (noteRow "a" (some "y")) (noteRow "b" (some "y")), 102, 0⟩]
        = some records ∧
      (apply_all noteCatalog (.truncate noteSchema) records).1.rows
        = {noteRow "b" (some "y")} := by
  have hsource : ((Table.truncate noteSchema).steps
      [.insert (noteRow "a" (some "x")),
        .update (noteRow "a" (some "x")) (noteRow "a" (some "y")),
        .update (noteRow "a" (some "y")) (noteRow "b" (some "y"))]).map Table.rows
      = some {noteRow "b" (some "y")} := by decide
  obtain ⟨t', ht', hrows⟩ := Option.map_eq_some_iff.mp hsource
  obtain ⟨records, hrecords, happly⟩ := replication_converges note_denotes
    (.truncate noteSchema) t'
    [⟨.insert (noteRow "a" (some "x")), 100, 0⟩,
      ⟨.update (noteRow "a" (some "x")) (noteRow "a" (some "y")), 101, 0⟩,
      ⟨.update (noteRow "a" (some "y")) (noteRow "b" (some "y")), 102, 0⟩]
    (by
      simp only [List.mem_cons, List.not_mem_nil, or_false, forall_eq_or_imp, forall_eq]
      exact ⟨by decide, by decide, by decide⟩)
    ht'
  exact ⟨records, hrecords, by rw [happly, hrows]⟩

/-- Setting a nullable column to `NULL` does not reach the target: the `UPDATE` leaves the
column out, every apply succeeds, and the target keeps the old value. -/
theorem update_to_null_diverges :
    ((Table.truncate noteSchema).steps
      [.insert (noteRow "a" (some "x")),
        .update (noteRow "a" (some "x")) (noteRow "a" none)]).map Table.rows
      = some {noteRow "a" none} ∧
    ∃ records, records_of bareHost noteSource noteSchema
        [⟨.insert (noteRow "a" (some "x")), 100, 0⟩,
          ⟨.update (noteRow "a" (some "x")) (noteRow "a" none), 101, 0⟩] = some records ∧
      (apply_all noteCatalog (.truncate noteSchema) records).2 = [true, true] ∧
      (apply_all noteCatalog (.truncate noteSchema) records).1.rows
        ≠ {noteRow "a" none} := by
  refine ⟨by decide, _, rfl, by decide, by decide⟩

end WalStream.Replayer

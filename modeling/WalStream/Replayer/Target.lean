/-
The target database: several tables behind `PostgreSQLTargetApplier`.

`Target` is what the database knows of its tables: their keys and unique constraints, and
what the texts of a statement mean to each. A statement names one table and changes that
table alone. The defaults an execution meets are an argument of it: a default may be a
sequence or a clock, and then the same statement meets other values the next time.

The results are about applying a record again. At-least-once delivery relies on them: a
successful apply whose mark is lost is followed by the same apply.
-/
import WalStream.Lib.UniqueTable
import WalStream.Lib.Lists
import WalStream.Replayer.Applier

set_option autoImplicit false

namespace WalStream.Replayer

open Lib

/-! ## The database

The target at the level at which the applier meets it: statements with cells, executed on tables
with unique constraints, where the columns that an insert leaves out take defaults that may
differ each time. -/

section

variable {τ : Type} {ι : τ → Type}

/-- The tables of the target database, and what the texts of a statement mean to them. -/
structure Target (V : (n : τ) → ι n → Type) where
  schema : (n : τ) → TableSchema (V n)
  uniques : (n : τ) → Finset (Finset (ι n))
  /-- The table a text names. -/
  table : String → Option τ
  /-- The column of the table a quoted identifier names. -/
  column : (n : τ) → String → Option (ι n)
  /-- The value a text parameter denotes in a column of that type. -/
  denote : (n : τ) → (i : ι n) → String → Option (V n i)

variable {V : (n : τ) → ι n → Type}

/-- The contents of the database. -/
abbrev Target.Database (tgt : Target V) := (n : τ) → UniqueTable (tgt.schema n) (tgt.uniques n)

/-- What the column defaults evaluate to in one execution. -/
abbrev Defaults (V : (n : τ) → ι n → Type) := (n : τ) → Row (V n)

/-- A record, the defaults of its first execution and those of the repeated ones. -/
structure Repeated (V : (n : τ) → ι n → Type) where
  event : ChangeRecord
  first : Defaults V
  again : List (Defaults V)

/-- The record applied once. -/
def Repeated.once (r : Repeated V) : Defaults V × ChangeRecord := (r.first, r.event)

/-- The record applied as often as it has defaults. -/
def Repeated.often (r : Repeated V) : List (Defaults V × ChangeRecord) :=
  r.once :: r.again.map fun dflt => (dflt, r.event)

/-- The texts as one of the tables takes them. -/
def Target.catalog [DecidableEq τ] (tgt : Target V) (n : τ) : Catalog (V n) :=
  { table := fun text => decide (tgt.table text = some n),
    column := tgt.column n,
    denote := tgt.denote n }

end

variable {τ : Type} [DecidableEq τ] {ι : τ → Type} [∀ n, DecidableEq (ι n)] [∀ n, Fintype (ι n)]
variable {V : (n : τ) → ι n → Type} [∀ n i, DecidableEq (V n i)]

namespace Target

/-- `conn.execute`; `none` if PostgreSQL reports an error. -/
def execute (tgt : Target V) (dflt : Defaults V) (db : tgt.Database) :
    Statement → Option tgt.Database
  | .insert table cells => do
      let n ← tgt.table table
      let t ← (db n).insertIgnore (dflt n) (← cells.mapM (tgt.catalog n).cell)
      return Function.update db n t
  | .update table sets wheres => do
      let n ← tgt.table table
      let t ← (db n).updateWhere (← sets.mapM (tgt.catalog n).cell)
        (← wheres.mapM (tgt.catalog n).cell)
      return Function.update db n t
  | .delete table wheres => do
      let n ← tgt.table table
      let cells ← wheres.mapM (tgt.catalog n).cell
      return Function.update db n ((db n).deleteWhere cells)
  | .truncate table => do
      let n ← tgt.table table
      return Function.update db n (.truncate (tgt.schema n) (tgt.uniques n))

/-- Run the statement, if there is one, and answer whether it did not fail. -/
def run (tgt : Target V) (dflt : Defaults V) (db : tgt.Database) :
    Option Statement → tgt.Database × Bool
  | none => (db, true)
  | some statement =>
      match tgt.execute dflt db statement with
      | some db' => (db', true)
      | none => (db, false)

/-- `PostgreSQLTargetApplier.apply`. -/
def apply (tgt : Target V) (dflt : Defaults V) (db : tgt.Database) (event : ChangeRecord) :
    tgt.Database × Bool :=
  if event.operation = "INSERT" then tgt.run dflt db (apply_insert event)
  else if event.operation = "UPDATE" then tgt.run dflt db (apply_update event)
  else if event.operation = "DELETE" then tgt.run dflt db (apply_delete event)
  else if event.operation = "TRUNCATE" then tgt.run dflt db (apply_truncate event)
  else (db, false)

/-- Apply records in order, each with the defaults of its execution: the final database and
every answer. -/
def apply_all (tgt : Target V) (db : tgt.Database) :
    List (Defaults V × ChangeRecord) → tgt.Database × List Bool
  | [] => (db, [])
  | (dflt, event) :: events =>
      let (db', ok) := tgt.apply dflt db event
      let (db'', oks) := tgt.apply_all db' events
      (db'', ok :: oks)

/-- Only an insert meets the defaults. -/
theorem apply_of_not_insert (tgt : Target V) (dflt dflt' : Defaults V) (db : tgt.Database)
    {event : ChangeRecord} (h : event.operation ≠ "INSERT") :
    tgt.apply dflt db event = tgt.apply dflt' db event := by
  unfold apply
  rw [if_neg h, if_neg h]
  split
  · unfold apply_update
    split <;> rfl
  · split
    · unfold apply_delete
      split <;> rfl
    · split <;> rfl

/-! ## The columns an insert gives

An insert is recognized as a repetition by its unique columns. If it leaves one of them to a
default that changes, the second insert is of another row. -/

/-- The new values of the record have one for the column. -/
def Gives (tgt : Target V) (event : ChangeRecord) (n : τ) (i : ι n) : Prop :=
  ∃ e ∈ event.new.entries, tgt.column n (quoted e.1) = some i

/-- An insert carries the primary key, and every column of a unique constraint whose
default is not the same in both executions. -/
def CarriesKeys (tgt : Target V) (event : ChangeRecord) (dflt dflt' : Defaults V) : Prop :=
  event.operation = "INSERT" → ∀ n, tgt.table event.table = some n →
    (∀ i ∈ (tgt.schema n).key, tgt.Gives event n i) ∧
    ∀ u ∈ tgt.uniques n, ∀ i ∈ u, tgt.Gives event n i ∨ dflt n i = dflt' n i

/-! ## Applying a record again

Each statement is idempotent on the state it has led to, and the four cases of `apply` come down
to that. -/

variable {tgt : Target V} {dflt dflt' : Defaults V} {db db' : tgt.Database}
  {event : ChangeRecord}

omit [∀ n, Fintype (ι n)] [∀ n, DecidableEq (ι n)] [∀ n i, DecidableEq (V n i)] in
/-- A column the record gives is assigned by the statement. -/
theorem mem_cells_of_gives {n : τ} {i : ι n} {cells : List (Σ i, V n i)}
    (hgives : tgt.Gives event n i)
    (hcells : (quoted_cells event.new).mapM (tgt.catalog n).cell = some cells) :
    i ∈ cells.map Sigma.fst := by
  obtain ⟨e, he, hcol⟩ := hgives
  have hquoted : (quoted e.1, e.2) ∈ quoted_cells event.new :=
    List.mem_map.mpr ⟨e, he, rfl⟩
  obtain ⟨cell, hcell, heq⟩ := exists_mem_of_mapM_some hcells hquoted
  simp only [Catalog.cell, Target.catalog, hcol, Option.bind_eq_bind, Option.bind_some,
    Option.bind_eq_some_iff, Option.pure_def, Option.some.injEq] at heq
  obtain ⟨x, _, rfl⟩ := heq
  exact List.mem_map.mpr ⟨_, hcell, rfl⟩

/-- The insert of a record, executed again. -/
theorem execute_insert_again (hop : event.operation = "INSERT")
    (hkeys : tgt.CarriesKeys event dflt dflt')
    (h : tgt.execute dflt db (.insert event.table (quoted_cells event.new)) = some db') :
    tgt.execute dflt' db' (.insert event.table (quoted_cells event.new)) = some db' := by
  simp only [execute, Option.bind_eq_bind, Option.bind_eq_some_iff, Option.pure_def,
    Option.some.injEq] at h
  obtain ⟨n, hn, cells, hcells, t, ht, rfl⟩ := h
  obtain ⟨hkey, huniq⟩ := hkeys hop n hn
  have hagain : t.insertIgnore (dflt' n) cells = some t := by
    refine UniqueTable.insertIgnore_again (fun i hi => mem_cells_of_gives (hkey i hi) hcells)
      (fun u hu i hi => ?_) ht
    rcases huniq u hu i hi with hgives | hdflt
    · exact Or.inl (mem_cells_of_gives hgives hcells)
    · exact Or.inr hdflt
  simp only [execute, hn, hcells, Option.bind_eq_bind, Option.bind_some, Function.update_self,
    hagain, Option.pure_def, Function.update_idem]

/-- The other statements, executed again. -/
theorem execute_again {statement : Statement}
    (hins : ∀ table cells, statement ≠ .insert table cells)
    (h : tgt.execute dflt db statement = some db') :
    tgt.execute dflt' db' statement = some db' := by
  cases statement with
  | insert table cells => exact absurd rfl (hins table cells)
  | update table sets wheres =>
      simp only [execute, Option.bind_eq_bind, Option.bind_eq_some_iff, Option.pure_def,
        Option.some.injEq] at h
      obtain ⟨n, hn, cells, hcells, cells', hcells', t, ht, rfl⟩ := h
      simp only [execute, hn, hcells, hcells', Option.bind_eq_bind, Option.bind_some,
        Function.update_self, UniqueTable.updateWhere_again ht, Option.pure_def,
        Function.update_idem]
  | delete table wheres =>
      simp only [execute, Option.bind_eq_bind, Option.bind_eq_some_iff, Option.pure_def,
        Option.some.injEq] at h
      obtain ⟨n, hn, cells, hcells, rfl⟩ := h
      simp only [execute, hn, hcells, Option.bind_eq_bind, Option.bind_some,
        Function.update_self, UniqueTable.deleteWhere_again, Option.pure_def,
        Function.update_idem]
  | truncate table =>
      simp only [execute, Option.bind_eq_bind, Option.bind_eq_some_iff, Option.pure_def,
        Option.some.injEq] at h
      obtain ⟨n, hn, rfl⟩ := h
      simp only [execute, hn, Option.bind_eq_bind, Option.bind_some, Option.pure_def,
        Function.update_idem]

/-- What ran without an error runs again without an error and changes nothing. -/
theorem run_again {statement : Option Statement}
    (hexec : ∀ s, statement = some s → tgt.execute dflt db s = some db' →
      tgt.execute dflt' db' s = some db')
    (h : tgt.run dflt db statement = (db', true)) :
    tgt.run dflt' db' statement = (db', true) := by
  cases statement with
  | none =>
      cases h
      rfl
  | some s =>
      simp only [run] at h
      split at h
      · rename_i db'' hdb
        cases h
        simp only [run, hexec s rfl hdb]
      · cases h

/-- **A successful apply can be repeated.** By the operation: the insert is skipped by the
key it carries, the update and the delete find nothing left to change. -/
theorem apply_again (hkeys : tgt.CarriesKeys event dflt dflt')
    (h : tgt.apply dflt db event = (db', true)) : tgt.apply dflt' db' event = (db', true) := by
  unfold apply at h ⊢
  split at h
  · rename_i hop
    rw [if_pos hop]
    refine run_again (fun s hs hexec => ?_) h
    unfold apply_insert at hs
    split at hs
    · cases hs
    · cases hs
      exact execute_insert_again hop hkeys hexec
  · rename_i hins
    rw [if_neg hins]
    split at h
    · rename_i hop
      rw [if_pos hop]
      refine run_again (fun s hs hexec => execute_again (fun table cells hs' => ?_) hexec) h
      unfold apply_update at hs
      split at hs <;> simp_all
    · rename_i hupd
      rw [if_neg hupd]
      split at h
      · rename_i hop
        rw [if_pos hop]
        refine run_again (fun s hs hexec => execute_again (fun table cells hs' => ?_) hexec) h
        unfold apply_delete at hs
        split at hs <;> simp_all
      · rename_i hdel
        rw [if_neg hdel]
        split at h
        · rename_i hop
          rw [if_pos hop]
          refine run_again (fun s hs hexec => execute_again (fun table cells hs' => ?_) hexec) h
          simp_all [apply_truncate]
        · cases h

/-! ## Repeating records

Over a sequence, a record that is repeated at once is a record applied once. -/

theorem apply_all_append (db : tgt.Database) (xs ys : List (Defaults V × ChangeRecord)) :
    tgt.apply_all db (xs ++ ys) =
      ((tgt.apply_all (tgt.apply_all db xs).1 ys).1,
        (tgt.apply_all db xs).2 ++ (tgt.apply_all (tgt.apply_all db xs).1 ys).2) := by
  induction xs generalizing db with
  | nil => rfl
  | cons x xs ih =>
      obtain ⟨dflt, event⟩ := x
      simp only [List.cons_append, apply_all, ih]

/-- After a successful apply the repeated ones succeed and change nothing. -/
theorem apply_all_again {again : List (Defaults V)}
    (hkeys : ∀ dflt' ∈ again, tgt.CarriesKeys event dflt dflt')
    (h : tgt.apply dflt db event = (db', true)) :
    tgt.apply_all db' (again.map fun dflt' => (dflt', event))
      = (db', List.replicate again.length true) := by
  induction again with
  | nil => rfl
  | cons dflt' again ih =>
      have hfirst := apply_again (hkeys dflt' (List.mem_cons_self ..)) h
      rw [List.map_cons, apply_all, hfirst]
      dsimp only
      rw [ih fun d hd => hkeys d (List.mem_cons_of_mem _ hd)]
      rfl

/-- **Applying is idempotent**, record by record, and for a list of records each repeated any
number of times in a row. -/
theorem apply_idempotent (tgt : Target V) :
    (∀ (db db' : tgt.Database) (dflt dflt' : Defaults V) (event : ChangeRecord),
      tgt.CarriesKeys event dflt dflt' → tgt.apply dflt db event = (db', true) →
        tgt.apply dflt' db' event = (db', true)) ∧
    ∀ (db : tgt.Database) (runs : List (Repeated V)),
      (∀ r ∈ runs, ∀ dflt' ∈ r.again, tgt.CarriesKeys r.event r.first dflt') →
      (∀ ok ∈ (tgt.apply_all db (runs.map Repeated.once)).2, ok = true) →
        (tgt.apply_all db (runs.flatMap Repeated.often)).1
          = (tgt.apply_all db (runs.map Repeated.once)).1 ∧
        ∀ ok ∈ (tgt.apply_all db (runs.flatMap Repeated.often)).2, ok = true := by
  refine ⟨fun db db' dflt dflt' event hkeys h => apply_again hkeys h, ?_⟩
  intro db runs hkeys hok
  -- record by record: its repetitions end where its first apply ended
  induction runs generalizing db with
  | nil => exact ⟨rfl, hok⟩
  | cons r runs ih =>
      rw [List.map_cons] at hok ⊢
      rw [List.flatMap_cons]
      cases happly : tgt.apply r.first db r.event with
      | mk db₁ ok₁ =>
      have honce : tgt.apply_all db (r.once :: runs.map Repeated.once)
          = ((tgt.apply_all db₁ (runs.map Repeated.once)).1,
            ok₁ :: (tgt.apply_all db₁ (runs.map Repeated.once)).2) := by
        rw [Repeated.once, apply_all, happly]
      rw [honce] at hok ⊢
      have hok₁ : ok₁ = true := hok ok₁ (List.mem_cons_self ..)
      subst hok₁
      have hagain := apply_all_again (hkeys r (List.mem_cons_self ..)) happly
      have hoften : tgt.apply_all db r.often
          = (db₁, true :: List.replicate r.again.length true) := by
        rw [Repeated.often, Repeated.once, apply_all, happly]
        dsimp only
        rw [hagain]
      obtain ⟨hdb, hall⟩ := ih db₁ (fun r' hr' => hkeys r' (List.mem_cons_of_mem _ hr'))
        (fun ok hmem => hok ok (List.mem_cons_of_mem _ hmem))
      rw [apply_all_append, hoften]
      refine ⟨hdb, fun ok hmem => ?_⟩
      rcases List.mem_append.mp hmem with hmem | hmem
      · rcases List.mem_cons.mp hmem with rfl | hmem
        · rfl
        · exact List.eq_of_mem_replicate hmem
      · exact hall ok hmem

/-! ### A table with a numbered column -/

/-- The columns of `public.t (id text PRIMARY KEY, code text UNIQUE)`. -/
inductive CodeColumn
  | id
  | code
deriving DecidableEq

instance : Fintype CodeColumn := ⟨{.id, .code}, fun i => by cases i <;> decide⟩

def codeSchema : TableSchema fun _ : CodeColumn => String :=
  { key := {.id}, key_nonempty := ⟨.id, by decide⟩, dflt := fun _ => none }

def codeTarget : Target fun (_ : Unit) (_ : CodeColumn) => String :=
  { schema := fun _ => codeSchema,
    uniques := fun _ => {{.code}},
    table := fun text => if text = "public.t" then some () else none,
    column := fun _ text =>
      if text = "\"id\"" then some .id else if text = "\"code\"" then some .code else none,
    denote := fun _ _ text => some text }

def codeRow (id code : String) : Row fun _ : CodeColumn => String
  | .id => some id
  | .code => some code

/-- The default of `code` comes to this text. -/
def codeDefault (code : String) : Defaults fun (_ : Unit) (_ : CodeColumn) => String
  | _, .id => none
  | _, .code => some code

/-- One row, numbered `1`. -/
def oneCodeTable : UniqueTable codeSchema {{.code}} :=
  { rows := {codeRow "a" "1"},
    key_not_null := by decide,
    key_unique := by decide,
    unique := by decide }

def oneCode : codeTarget.Database := fun _ => oneCodeTable

/-- An insert of the row `b`, without a code. -/
def insertB : ChangeRecord :=
  { sampleRecord "1" with new := Dict.empty.set "id" "b" }

theorem gives_insertB : ∀ i ∈ (codeTarget.schema ()).key, codeTarget.Gives insertB () i := by
  intro i hi
  rw [Finset.mem_singleton.mp hi]
  exact ⟨("id", "b"), by decide, by decide⟩

/-- An update that gives the row `b` the key `c`. -/
def renameB : ChangeRecord :=
  { sampleRecord "2" with
    operation := "UPDATE", old := Dict.empty.set "id" "b", new := Dict.empty.set "id" "c" }

def deleteA : ChangeRecord :=
  { sampleRecord "3" with operation := "DELETE", old := Dict.empty.set "id" "a", new := Dict.empty }

/-- An insert, an update that changes the key and a delete. The update and the delete are
repeated when the sequence has gone on. -/
def codeRuns : List (Repeated fun (_ : Unit) (_ : CodeColumn) => String) :=
  [{ event := insertB, first := codeDefault "2", again := [codeDefault "2"] },
    { event := renameB, first := codeDefault "3", again := [codeDefault "4", codeDefault "5"] },
    { event := deleteA, first := codeDefault "6", again := [codeDefault "7"] }]

/-- Repeated or not, these leave the row `c` with the number the insert has drawn. -/
theorem apply_idempotent_code :
    ((codeTarget.apply_all oneCode (codeRuns.flatMap Repeated.often)).1 ()).rows
        = {codeRow "c" "2"} ∧
    ∀ ok ∈ (codeTarget.apply_all oneCode (codeRuns.flatMap Repeated.often)).2, ok = true := by
  have hkeys : ∀ r ∈ codeRuns, ∀ dflt' ∈ r.again,
      codeTarget.CarriesKeys r.event r.first dflt' := by
    simp only [codeRuns, List.forall_mem_cons, List.not_mem_nil, false_implies, implies_true,
      and_true]
    -- only the insert has to carry its keys, and its one repetition draws the same number
    refine ⟨fun _ _ _ => ⟨gives_insertB, fun _ _ _ _ => Or.inr rfl⟩, ⟨?_, ?_⟩, ?_⟩
    all_goals exact fun hop => absurd hop (by decide)
  have hok : ∀ ok ∈ (codeTarget.apply_all oneCode (codeRuns.map Repeated.once)).2, ok = true := by
    decide
  obtain ⟨hdb, hall⟩ := (apply_idempotent codeTarget).2 oneCode codeRuns hkeys hok
  refine ⟨?_, hall⟩
  rw [hdb]
  decide

/-- The insert carries the primary key. It is skipped because the number the sequence gives
is taken; repeated, it gets the next number and inserts the row. -/
theorem insert_skipped_then_inserted :
    (∀ i ∈ (codeTarget.schema ()).key, codeTarget.Gives insertB () i) ∧
    (codeTarget.apply (codeDefault "1") oneCode insertB).2 = true ∧
    ((codeTarget.apply (codeDefault "1") oneCode insertB).1 ()).rows = {codeRow "a" "1"} ∧
    ((codeTarget.apply (codeDefault "2")
      (codeTarget.apply (codeDefault "1") oneCode insertB).1 insertB).1 ()).rows
        = {codeRow "a" "1", codeRow "b" "2"} :=
  ⟨gives_insertB, by decide, by decide, by decide⟩

end Target

end WalStream.Replayer

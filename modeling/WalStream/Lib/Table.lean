/-
Tables with a primary key, and the data-changing statements of SQL on them.

A row gives every column a value or `NULL`. A `Table` is a finite set of rows and carries
the proof that its key columns are not null and identify the row, so a table that breaks
its primary key cannot be built: a statement that would break it fails instead. The
statements name columns by assignments, as `SET` lists and equality `WHERE` clauses do;
beside them stand the row operations a log of changes is made of, and the lemmas say which
statement does the work of which row operation.

Nothing here names a particular program.
-/
import Mathlib.Data.Finset.Image
import Mathlib.Data.Fintype.Pi
import Mathlib.Data.List.Nodup

set_option autoImplicit false

namespace WalStream.Lib

/-! ## Rows and tables

The primary key is part of the type. A statement can be refused, but no statement leaves a table
that breaks its key. -/

section

variable {ι : Type} {V : ι → Type}

/-- A row: a value for every column, `none` for `NULL`. -/
abbrev Row (V : ι → Type) := (i : ι) → Option (V i)

/-- The primary key and the column defaults of a table. -/
structure TableSchema (V : ι → Type) where
  key : Finset ι
  key_nonempty : key.Nonempty
  dflt : Row V

variable {σ : TableSchema V}

/-- The rows agree on the key columns. -/
def TableSchema.SameKey (σ : TableSchema V) (r r' : Row V) : Prop := ∀ i ∈ σ.key, r i = r' i

/-- No key column of the row is null. -/
def TableSchema.KeyNotNull (σ : TableSchema V) (r : Row V) : Prop := ∀ i ∈ σ.key, r i ≠ none

theorem TableSchema.SameKey.symm {r r' : Row V} (h : σ.SameKey r r') : σ.SameKey r' r :=
  fun i hi => (h i hi).symm

/-- A table: a set of rows that satisfies its primary key. -/
structure Table (σ : TableSchema V) where
  rows : Finset (Row V)
  key_not_null : ∀ r ∈ rows, σ.KeyNotNull r
  key_unique : ∀ r ∈ rows, ∀ r' ∈ rows, σ.SameKey r r' → r = r'

@[ext] theorem Table.ext {t t' : Table σ} (h : t.rows = t'.rows) : t = t' := by
  cases t; cases t'; cases h; rfl

/-- The table without rows. -/
def Table.truncate (σ : TableSchema V) : Table σ :=
  { rows := ∅,
    key_not_null := fun _ h => absurd h (Finset.notMem_empty _),
    key_unique := fun _ h => absurd h (Finset.notMem_empty _) }

end

variable {ι : Type} [DecidableEq ι] {V : ι → Type}

/-! ## Assignments

The lists of columns with values that `SET`, `WHERE` and the column list of an `INSERT` are made
of. A null has no place in them, so a row is given by its values that are not null, and a column
without one keeps what it has. -/

/-- The value a list of assignments gives a column: the first, if there is one. -/
def assigned : List (Σ i, V i) → Row V
  | [], _ => none
  | ⟨j, x⟩ :: cells, i => if h : j = i then some (h ▸ x) else assigned cells i

/-- The row with the assigned columns changed. -/
def assign (cells : List (Σ i, V i)) (r : Row V) : Row V := fun i =>
  match assigned cells i with
  | some x => some x
  | none => r i

/-- The assignments that write the non-null values of `r` in the columns `is`. -/
def cells_of (r : Row V) (is : List ι) : List (Σ i, V i) :=
  is.filterMap fun i => (r i).map fun x => ⟨i, x⟩

omit [DecidableEq ι] in
theorem map_fst_cells_of_sublist (r : Row V) (is : List ι) :
    ((cells_of r is).map Sigma.fst).Sublist is := by
  induction is with
  | nil => exact List.Sublist.refl _
  | cons i is ih =>
      cases hx : r i with
      | none => simpa [cells_of, hx] using ih.cons i
      | some x => simpa [cells_of, hx] using ih.cons_cons i

theorem assigned_cells_of (r : Row V) {is : List ι} {i : ι} (hi : i ∈ is) :
    assigned (cells_of r is) i = r i := by
  induction is with
  | nil => cases hi
  | cons j is ih =>
      by_cases hji : j = i
      · subst hji
        -- the column itself: its value, or nothing in the whole list
        cases hx : r j with
        | some x => simp [cells_of, assigned, hx]
        | none =>
            by_cases hmem : j ∈ is
            · have hrest : cells_of r (j :: is) = cells_of r is := by simp [cells_of, hx]
              rw [hrest, ih hmem, hx]
            · have hrest : cells_of r (j :: is) = cells_of r is := by simp [cells_of, hx]
              rw [hrest]
              -- no later column is `j`
              clear ih hrest hi
              induction is with
              | nil => rfl
              | cons k is ih =>
                  rw [List.mem_cons, not_or] at hmem
                  cases hy : r k with
                  | none => simpa [cells_of, hy] using ih hmem.2
                  | some y =>
                      have hk : k ≠ j := Ne.symm hmem.1
                      simpa [cells_of, hy, assigned, hk] using ih hmem.2
      · have hmem : i ∈ is := (List.mem_cons.mp hi).resolve_left (Ne.symm hji)
        cases hx : r j with
        | none => simpa [cells_of, hx] using ih hmem
        | some x => simpa [cells_of, hx, assigned, hji] using ih hmem

/-- Assigning all non-null values of `r` gives `r`, except that a null of `r` leaves the
column as it was. -/
theorem assign_cells_of (r base : Row V) {is : List ι} (hall : ∀ i, i ∈ is)
    (hnull : ∀ i, r i = none → base i = none) : assign (cells_of r is) base = r := by
  funext i
  rw [assign, assigned_cells_of r (hall i)]
  cases hx : r i with
  | some x => rfl
  | none => exact hnull i hx

variable [Fintype ι] [∀ i, DecidableEq (V i)]

instance {σ : TableSchema V} (r r' : Row V) : Decidable (σ.SameKey r r') :=
  inferInstanceAs (Decidable (∀ i ∈ σ.key, r i = r' i))

instance {σ : TableSchema V} (r : Row V) : Decidable (σ.KeyNotNull r) :=
  inferInstanceAs (Decidable (∀ i ∈ σ.key, r i ≠ none))

/-- The row satisfies every equality of the list. A null satisfies none. -/
def satisfies (cells : List (Σ i, V i)) (r : Row V) : Bool :=
  cells.all fun c => decide (r c.1 = some c.2)

omit [DecidableEq ι] [Fintype ι] in
theorem satisfies_cells_of_iff {r old : Row V} {is : List ι} (hnull : ∀ i ∈ is, old i ≠ none) :
    satisfies (cells_of old is) r = true ↔ ∀ i ∈ is, old i = r i := by
  simp only [satisfies, cells_of, List.all_eq_true, List.mem_filterMap, Option.map_eq_some_iff,
    decide_eq_true_eq]
  constructor
  · intro h i hi
    obtain ⟨x, hx⟩ := Option.ne_none_iff_exists'.mp (hnull i hi)
    rw [hx]
    exact (h ⟨i, x⟩ ⟨i, hi, x, hx, rfl⟩).symm
  · rintro h c ⟨i, hi, x, hx, rfl⟩
    rw [← h i hi, hx]

/-! ## Statements

A statement names rows by a condition and not by the rows themselves. Each returns the new table
or fails, and fails as a whole. -/

variable {σ : TableSchema V}

namespace Table

/-- The table with one more row, whose key is complete and free. -/
def insertRow (t : Table σ) (new : Row V) (hnull : σ.KeyNotNull new)
    (hfree : ∀ r ∈ t.rows, ¬ σ.SameKey new r) : Table σ :=
  { rows := insert new t.rows,
    key_not_null := by
      intro r hr
      rcases Finset.mem_insert.mp hr with rfl | hmem
      · exact hnull
      · exact t.key_not_null r hmem
    key_unique := by
      intro r hr r' hr' hkey
      -- two rows with one key: both old, or one of them new and then its key was free
      rcases Finset.mem_insert.mp hr with rfl | hmem
      · rcases Finset.mem_insert.mp hr' with rfl | hmem'
        · rfl
        · exact absurd hkey (hfree r' hmem')
      · rcases Finset.mem_insert.mp hr' with rfl | hmem'
        · exact absurd hkey.symm (hfree r hmem)
        · exact t.key_unique r hmem r' hmem' hkey }

/-- The table without one row. -/
def eraseRow (t : Table σ) (old : Row V) : Table σ :=
  { rows := t.rows.erase old,
    key_not_null := fun r hr => t.key_not_null r (Finset.mem_of_mem_erase hr),
    key_unique := fun r hr r' hr' =>
      t.key_unique r (Finset.mem_of_mem_erase hr) r' (Finset.mem_of_mem_erase hr') }

/-- `INSERT … ON CONFLICT DO NOTHING` of one row. A column that is not listed takes its
default; a null in the key fails. -/
def insertIgnore (t : Table σ) (cells : List (Σ i, V i)) : Option (Table σ) :=
  if (cells.map Sigma.fst).Nodup then
    if hnull : σ.KeyNotNull (assign cells σ.dflt) then
      if hconf : ∃ r ∈ t.rows, σ.SameKey (assign cells σ.dflt) r then some t
      else some (t.insertRow (assign cells σ.dflt) hnull fun r hr hkey => hconf ⟨r, hr, hkey⟩)
    else none
  else none

/-- `UPDATE … SET … WHERE …`. It fails when the changed rows would break the key. -/
def updateWhere (t : Table σ) (sets wheres : List (Σ i, V i)) : Option (Table σ) :=
  if (sets.map Sigma.fst).Nodup then
    let change := fun r => if satisfies wheres r then assign sets r else r
    if h : (∀ r ∈ t.rows, σ.KeyNotNull (change r)) ∧
        ∀ r ∈ t.rows, ∀ r' ∈ t.rows, σ.SameKey (change r) (change r') → r = r' then
      some
        { rows := t.rows.image change,
          key_not_null := by
            intro r hr
            obtain ⟨r₀, hr₀, rfl⟩ := Finset.mem_image.mp hr
            exact h.1 r₀ hr₀
          key_unique := by
            intro r hr r' hr' hkey
            obtain ⟨r₀, hr₀, rfl⟩ := Finset.mem_image.mp hr
            obtain ⟨r₁, hr₁, rfl⟩ := Finset.mem_image.mp hr'
            rw [h.2 r₀ hr₀ r₁ hr₁ hkey] }
    else none
  else none

/-- `DELETE … WHERE …`. -/
def deleteWhere (t : Table σ) (wheres : List (Σ i, V i)) : Table σ :=
  { rows := t.rows.filter fun r => ¬ satisfies wheres r,
    key_not_null := fun r hr => t.key_not_null r (Finset.mem_filter.mp hr).1,
    key_unique := fun r hr r' hr' =>
      t.key_unique r (Finset.mem_filter.mp hr).1 r' (Finset.mem_filter.mp hr').1 }

end Table

/-! ## Row operations

What a log of changes is made of: a row as it was and as it is. They say what happened, and are
possible only on a table on which it could happen. -/

/-- A change of one row, or of all of them. -/
inductive RowOp (V : ι → Type)
  | insert (new : Row V)
  | update (old new : Row V)
  | delete (old : Row V)
  | truncate

/-- The table after a row operation; `none` if the operation is not possible on it: the
old row is not there, or the new one breaks the key. -/
def Table.step (t : Table σ) : RowOp V → Option (Table σ)
  | .insert new =>
      if h : σ.KeyNotNull new ∧ ∀ r ∈ t.rows, ¬ σ.SameKey new r then
        some (t.insertRow new h.1 h.2)
      else none
  | .update old new =>
      if h : old ∈ t.rows ∧ σ.KeyNotNull new ∧ ∀ r ∈ t.rows.erase old, ¬ σ.SameKey new r then
        some ((t.eraseRow old).insertRow new h.2.1 h.2.2)
      else none
  | .delete old => if old ∈ t.rows then some (t.eraseRow old) else none
  | .truncate => some (.truncate σ)

/-- The table after a sequence of row operations. -/
def Table.steps (t : Table σ) : List (RowOp V) → Option (Table σ)
  | [] => some t
  | op :: ops => (t.step op).bind fun t' => t'.steps ops

/-! ## Which statement does which row operation -/

namespace Table

variable {t t' : Table σ} {old new : Row V}

/-- The statement inserts the row its assignments and the defaults make. -/
theorem insertIgnore_of_step {cells : List (Σ i, V i)} (hnodup : (cells.map Sigma.fst).Nodup)
    (hnew : assign cells σ.dflt = new) (h : t.step (.insert new) = some t') :
    t.insertIgnore cells = some t' := by
  subst hnew
  simp only [step] at h
  split at h
  · rename_i hok
    obtain ⟨hnull, hfree⟩ := hok
    have hconf : ¬ ∃ r ∈ t.rows, σ.SameKey (assign cells σ.dflt) r := by
      rintro ⟨r, hr, hkey⟩
      exact hfree r hr hkey
    rw [insertIgnore, if_pos hnodup, dif_pos hnull, dif_neg hconf]
    exact h
  · cases h

omit [DecidableEq ι] [Fintype ι] in
/-- A `WHERE` clause on the key of a row selects that row and no other. -/
theorem satisfies_iff_eq {wheres : List (Σ i, V i)}
    (hwhere : ∀ r, satisfies wheres r = true ↔ σ.SameKey old r) (hold : old ∈ t.rows) :
    ∀ r ∈ t.rows, (satisfies wheres r = true ↔ r = old) := by
  intro r hr
  rw [hwhere]
  constructor
  · intro hkey
    exact (t.key_unique old hold r hr hkey).symm
  · rintro rfl
    exact fun i _ => rfl

/-- The statement that selects the old row by its key and assigns it the new one. -/
theorem updateWhere_of_step {sets wheres : List (Σ i, V i)}
    (hnodup : (sets.map Sigma.fst).Nodup) (hset : assign sets old = new)
    (hwhere : ∀ r, satisfies wheres r = true ↔ σ.SameKey old r)
    (h : t.step (.update old new) = some t') : t.updateWhere sets wheres = some t' := by
  simp only [step] at h
  split at h
  · rename_i hok
    obtain ⟨hold, hnull, hfree⟩ := hok
    have hsel := satisfies_iff_eq hwhere hold
    -- the clause selects one row, so the statement changes that row alone
    have hchange : ∀ r ∈ t.rows, (if satisfies wheres r then assign sets r else r) =
        if r = old then new else r := by
      intro r hr
      by_cases hro : r = old
      · rw [if_pos ((hsel r hr).mpr hro), if_pos hro, hro, hset]
      · rw [if_neg (fun hs => hro ((hsel r hr).mp hs)), if_neg hro]
    rw [updateWhere, if_pos hnodup]
    have hcond : (∀ r ∈ t.rows, σ.KeyNotNull (if satisfies wheres r then assign sets r else r)) ∧
        ∀ r ∈ t.rows, ∀ r' ∈ t.rows, σ.SameKey (if satisfies wheres r then assign sets r else r)
          (if satisfies wheres r' then assign sets r' else r') → r = r' := by
      constructor
      · intro r hr
        rw [hchange r hr]
        split
        · exact hnull
        · exact t.key_not_null r hr
      · intro r hr r' hr' hkey
        rw [hchange r hr, hchange r' hr'] at hkey
        -- the changed row cannot meet another key, which the row operation checked
        by_cases hro : r = old
        · by_cases hro' : r' = old
          · rw [hro, hro']
          · rw [if_pos hro, if_neg hro'] at hkey
            exact absurd hkey (hfree r' (Finset.mem_erase.mpr ⟨hro', hr'⟩))
        · by_cases hro' : r' = old
          · rw [if_neg hro, if_pos hro'] at hkey
            exact absurd hkey.symm (hfree r (Finset.mem_erase.mpr ⟨hro, hr⟩))
          · rw [if_neg hro, if_neg hro'] at hkey
            exact t.key_unique r hr r' hr' hkey
    rw [dif_pos hcond, ← h]
    -- as sets of rows: the old row is replaced by the new one
    congr 1
    ext1
    dsimp only [insertRow, eraseRow]
    ext r
    rw [Finset.mem_image, Finset.mem_insert, Finset.mem_erase]
    constructor
    · rintro ⟨r₀, hr₀, rfl⟩
      rw [hchange r₀ hr₀]
      by_cases hro : r₀ = old
      · rw [if_pos hro]
        exact Or.inl rfl
      · rw [if_neg hro]
        exact Or.inr ⟨hro, hr₀⟩
    · rintro (rfl | ⟨hne, hr⟩)
      · exact ⟨old, hold, by rw [hchange old hold, if_pos rfl]⟩
      · exact ⟨r, hr, by rw [hchange r hr, if_neg hne]⟩
  · cases h

/-- The statement that selects the old row by its key and deletes it. -/
theorem deleteWhere_of_step {wheres : List (Σ i, V i)}
    (hwhere : ∀ r, satisfies wheres r = true ↔ σ.SameKey old r)
    (h : t.step (.delete old) = some t') : t.deleteWhere wheres = t' := by
  simp only [step] at h
  split at h
  · rename_i hold
    have hsel := satisfies_iff_eq hwhere hold
    rw [Option.some.injEq] at h
    subst h
    ext1
    dsimp only [deleteWhere, eraseRow]
    ext r
    rw [Finset.mem_filter, Finset.mem_erase]
    constructor
    · rintro ⟨hr, hs⟩
      exact ⟨fun hro => hs ((hsel r hr).mpr hro), hr⟩
    · rintro ⟨hne, hr⟩
      exact ⟨hr, fun hs => hne ((hsel r hr).mp hs)⟩
  · cases h

/-- The old row of a row operation that is possible has its key. -/
theorem keyNotNull_of_update (h : t.step (.update old new) = some t') : σ.KeyNotNull old := by
  simp only [step] at h
  split at h
  · rename_i hok
    exact t.key_not_null old hok.1
  · cases h

theorem keyNotNull_new_of_update (h : t.step (.update old new) = some t') : σ.KeyNotNull new := by
  simp only [step] at h
  split at h
  · rename_i hok
    exact hok.2.1
  · cases h

theorem keyNotNull_of_delete (h : t.step (.delete old) = some t') : σ.KeyNotNull old := by
  simp only [step] at h
  split at h
  · rename_i hold
    exact t.key_not_null old hold
  · cases h

theorem keyNotNull_of_insert (h : t.step (.insert new) = some t') : σ.KeyNotNull new := by
  simp only [step] at h
  split at h
  · rename_i hok
    exact hok.1
  · cases h

end Table

end WalStream.Lib

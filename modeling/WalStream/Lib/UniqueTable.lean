/-
Tables with further unique constraints.

A `UniqueTable` is a `Table` that also satisfies unique constraints, each a set of columns
in which no two rows have the same complete values; a null is equal to nothing. The
statements are those of `Table`, with two differences: an insert that meets any of the
constraints is skipped, and the defaults are those of the one execution, because a default
can be a sequence or a clock.

The second half is about executing a statement twice: what it did the first time leaves it
nothing to do the second.

Nothing here names a particular program.
-/
import WalStream.Lib.Table

set_option autoImplicit false

namespace WalStream.Lib

/-! ## The constraints

Any number of unique constraints, each a set of columns; a null in one of them exempts the row. -/

section

variable {ι : Type} {V : ι → Type}

/-- The rows have the same values in the columns, all of them known. -/
def Clash (u : Finset ι) (r r' : Row V) : Prop := ∀ i ∈ u, r i = r' i ∧ r i ≠ none

/-- The rows cannot be in one table: they meet in the primary key, or in a unique
constraint. -/
def Conflicts (σ : TableSchema V) (uniques : Finset (Finset ι)) (r r' : Row V) : Prop :=
  σ.SameKey r r' ∨ ∃ u ∈ uniques, Clash u r r'

variable {σ : TableSchema V} {uniques : Finset (Finset ι)}

theorem Clash.symm {u : Finset ι} {r r' : Row V} (h : Clash u r r') : Clash u r' r := by
  intro i hi
  obtain ⟨heq, hnull⟩ := h i hi
  exact ⟨heq.symm, heq ▸ hnull⟩

theorem Conflicts.symm {r r' : Row V} (h : Conflicts σ uniques r r') :
    Conflicts σ uniques r' r := by
  rcases h with hkey | ⟨u, hu, hclash⟩
  · exact Or.inl hkey.symm
  · exact Or.inr ⟨u, hu, hclash.symm⟩

/-- Only the columns of the key and of the constraints count. -/
theorem Conflicts.congr {r s r' : Row V} (h : Conflicts σ uniques r r')
    (hkey : ∀ i ∈ σ.key, s i = r i) (huniq : ∀ u ∈ uniques, ∀ i ∈ u, s i = r i) :
    Conflicts σ uniques s r' := by
  rcases h with hsame | ⟨u, hu, hclash⟩
  · exact Or.inl fun i hi => (hkey i hi).trans (hsame i hi)
  · refine Or.inr ⟨u, hu, fun i hi => ?_⟩
    rw [huniq u hu i hi]
    exact hclash i hi

/-- A table that satisfies its primary key and its unique constraints. -/
structure UniqueTable (σ : TableSchema V) (uniques : Finset (Finset ι)) extends Table σ where
  unique : ∀ r ∈ rows, ∀ r' ∈ rows, Conflicts σ uniques r r' → r = r'

@[ext] theorem UniqueTable.ext {t t' : UniqueTable σ uniques} (h : t.rows = t'.rows) :
    t = t' := by
  obtain ⟨t, _⟩ := t
  obtain ⟨t', _⟩ := t'
  cases Table.ext h
  rfl

/-- The table without rows. -/
def UniqueTable.truncate (σ : TableSchema V) (uniques : Finset (Finset ι)) :
    UniqueTable σ uniques :=
  { Table.truncate σ with unique := fun _ h => absurd h (Finset.notMem_empty _) }

end

variable {ι : Type} [DecidableEq ι] {V : ι → Type}

/-! ## Assigning twice

An assignment to a row that it has been made to already changes nothing. -/

/-- A column that is assigned to has a value. -/
theorem assigned_isSome_of_mem {cells : List (Σ i, V i)} {i : ι} (h : i ∈ cells.map Sigma.fst) :
    (assigned cells i).isSome = true := by
  induction cells with
  | nil => simp at h
  | cons c cells ih =>
      obtain ⟨j, x⟩ := c
      by_cases hj : j = i
      · simp [assigned, hj]
      · rw [List.map_cons, List.mem_cons] at h
        simp only [assigned, hj, dif_neg, not_false_iff]
        exact ih (h.resolve_left (Ne.symm hj))

/-- What a column is assigned does not depend on the row. -/
theorem assign_eq_of_mem {cells : List (Σ i, V i)} {i : ι} (h : i ∈ cells.map Sigma.fst)
    (r r' : Row V) : assign cells r i = assign cells r' i := by
  obtain ⟨x, hx⟩ := Option.isSome_iff_exists.mp (assigned_isSome_of_mem h)
  simp only [assign, hx]

theorem assign_assign (cells : List (Σ i, V i)) (r : Row V) :
    assign cells (assign cells r) = assign cells r := by
  funext i
  cases hx : assigned cells i with
  | some x => simp only [assign, hx]
  | none => simp only [assign, hx]

variable [Fintype ι] [∀ i, DecidableEq (V i)]

instance (u : Finset ι) (r r' : Row V) : Decidable (Clash u r r') :=
  inferInstanceAs (Decidable (∀ i ∈ u, r i = r' i ∧ r i ≠ none))

instance (σ : TableSchema V) (uniques : Finset (Finset ι)) (r r' : Row V) :
    Decidable (Conflicts σ uniques r r') :=
  inferInstanceAs (Decidable (σ.SameKey r r' ∨ ∃ u ∈ uniques, Clash u r r'))

/-- What `UPDATE … SET … WHERE …` makes of a row. -/
def changed (sets wheres : List (Σ i, V i)) (r : Row V) : Row V :=
  if satisfies wheres r then assign sets r else r

omit [Fintype ι] in
/-- **A changed row is not changed again**, whether or not the clause still selects it. -/
theorem changed_changed (sets wheres : List (Σ i, V i)) (r : Row V) :
    changed sets wheres (changed sets wheres r) = changed sets wheres r := by
  by_cases hsel : satisfies wheres r = true
  · have hrow : changed sets wheres r = assign sets r := by rw [changed, if_pos hsel]
    rw [hrow]
    by_cases hagain : satisfies wheres (assign sets r) = true
    · rw [changed, if_pos hagain, assign_assign]
    · rw [changed, if_neg hagain]
  · have hrow : changed sets wheres r = r := by rw [changed, if_neg hsel]
    rw [hrow, hrow]

/-! ## Statements -/

variable {σ : TableSchema V} {uniques : Finset (Finset ι)}

namespace UniqueTable

/-- The table with one more row, whose key is complete and which meets no other row. -/
def insertRow (t : UniqueTable σ uniques) (new : Row V) (hnull : σ.KeyNotNull new)
    (hfree : ∀ r ∈ t.rows, ¬ Conflicts σ uniques new r) : UniqueTable σ uniques :=
  { t.toTable.insertRow new hnull fun r hr hkey => hfree r hr (Or.inl hkey) with
    unique := by
      intro r hr r' hr' hconf
      rcases Finset.mem_insert.mp hr with rfl | hmem
      · rcases Finset.mem_insert.mp hr' with rfl | hmem'
        · rfl
        · exact absurd hconf (hfree r' hmem')
      · rcases Finset.mem_insert.mp hr' with rfl | hmem'
        · exact absurd hconf.symm (hfree r hmem)
        · exact t.unique r hmem r' hmem' hconf }

/-- `INSERT … ON CONFLICT DO NOTHING` of one row, without a conflict target: a conflict with
any of the constraints skips the row. -/
def insertIgnore (t : UniqueTable σ uniques) (dflt : Row V) (cells : List (Σ i, V i)) :
    Option (UniqueTable σ uniques) :=
  if (cells.map Sigma.fst).Nodup then
    if hnull : σ.KeyNotNull (assign cells dflt) then
      if hconf : ∃ r ∈ t.rows, Conflicts σ uniques (assign cells dflt) r then some t
      else some (t.insertRow (assign cells dflt) hnull fun r hr h => hconf ⟨r, hr, h⟩)
    else none
  else none

/-- `UPDATE … SET … WHERE …`. It fails when the changed rows would break a constraint. -/
def updateWhere (t : UniqueTable σ uniques) (sets wheres : List (Σ i, V i)) :
    Option (UniqueTable σ uniques) :=
  if (sets.map Sigma.fst).Nodup then
    if h : (∀ r ∈ t.rows, σ.KeyNotNull (changed sets wheres r)) ∧
        ∀ r ∈ t.rows, ∀ r' ∈ t.rows,
          Conflicts σ uniques (changed sets wheres r) (changed sets wheres r') → r = r' then
      some
        { rows := t.rows.image (changed sets wheres),
          key_not_null := by
            intro r hr
            obtain ⟨r₀, hr₀, rfl⟩ := Finset.mem_image.mp hr
            exact h.1 r₀ hr₀
          key_unique := by
            intro r hr r' hr' hkey
            obtain ⟨r₀, hr₀, rfl⟩ := Finset.mem_image.mp hr
            obtain ⟨r₁, hr₁, rfl⟩ := Finset.mem_image.mp hr'
            rw [h.2 r₀ hr₀ r₁ hr₁ (Or.inl hkey)]
          unique := by
            intro r hr r' hr' hconf
            obtain ⟨r₀, hr₀, rfl⟩ := Finset.mem_image.mp hr
            obtain ⟨r₁, hr₁, rfl⟩ := Finset.mem_image.mp hr'
            rw [h.2 r₀ hr₀ r₁ hr₁ hconf] }
    else none
  else none

/-- `DELETE … WHERE …`. -/
def deleteWhere (t : UniqueTable σ uniques) (wheres : List (Σ i, V i)) : UniqueTable σ uniques :=
  { t.toTable.deleteWhere wheres with
    unique := fun r hr r' hr' =>
      t.unique r (Finset.mem_filter.mp hr).1 r' (Finset.mem_filter.mp hr').1 }

/-! ## Executing a statement twice

Each statement leads to a table on which it changes nothing, under one condition for the
insertion: that what it leaves to defaults does not decide whether it conflicts. -/

variable {t t' : UniqueTable σ uniques}

/-- **An insert is skipped the second time**, also with other defaults, if the key is
assigned and the columns of the constraints are assigned or have the same default. -/
theorem insertIgnore_again {dflt dflt' : Row V} {cells : List (Σ i, V i)}
    (hkey : ∀ i ∈ σ.key, i ∈ cells.map Sigma.fst)
    (huniq : ∀ u ∈ uniques, ∀ i ∈ u, i ∈ cells.map Sigma.fst ∨ dflt i = dflt' i)
    (h : t.insertIgnore dflt cells = some t') : t'.insertIgnore dflt' cells = some t' := by
  have hsame : ∀ i ∈ σ.key, assign cells dflt' i = assign cells dflt i :=
    fun i hi => assign_eq_of_mem (hkey i hi) _ _
  have hsame' : ∀ u ∈ uniques, ∀ i ∈ u, assign cells dflt' i = assign cells dflt i := by
    intro u hu i hi
    rcases huniq u hu i hi with hmem | hdflt
    · exact assign_eq_of_mem hmem _ _
    · simp only [assign, hdflt]
  unfold insertIgnore at h
  split at h
  · rename_i hnodup
    split at h
    · rename_i hnull
      have hnull' : σ.KeyNotNull (assign cells dflt') := by
        intro i hi
        rw [hsame i hi]
        exact hnull i hi
      -- the row it met, or the one it inserted, is there the second time
      have hconf : ∃ r ∈ t'.rows, Conflicts σ uniques (assign cells dflt') r := by
        split at h
        · rename_i hconf
          obtain ⟨r, hr, hmeets⟩ := hconf
          cases h
          exact ⟨r, hr, hmeets.congr hsame hsame'⟩
        · cases h
          exact ⟨assign cells dflt, Finset.mem_insert_self _ _, Or.inl hsame⟩
      rw [insertIgnore, if_pos hnodup, dif_pos hnull', dif_pos hconf]
    · cases h
  · cases h

/-- **An update changes nothing the second time.** -/
theorem updateWhere_again {sets wheres : List (Σ i, V i)}
    (h : t.updateWhere sets wheres = some t') : t'.updateWhere sets wheres = some t' := by
  unfold updateWhere at h
  split at h
  · rename_i hnodup
    split at h
    · cases h
      rename_i hok
      -- every row of the result is one the statement leaves as it is
      have hfixed : ∀ r ∈ t.rows.image (changed sets wheres), changed sets wheres r = r := by
        intro r hr
        obtain ⟨r₀, _, rfl⟩ := Finset.mem_image.mp hr
        exact changed_changed sets wheres r₀
      rw [updateWhere, if_pos hnodup, dif_pos]
      · congr 1
        ext1
        exact (Finset.image_congr hfixed).trans Finset.image_id
      · refine ⟨fun r hr => ?_, fun r hr r' hr' hconf => ?_⟩
        · rw [hfixed r hr]
          obtain ⟨r₀, hr₀, rfl⟩ := Finset.mem_image.mp hr
          exact hok.1 r₀ hr₀
        · rw [hfixed r hr, hfixed r' hr'] at hconf
          obtain ⟨r₀, hr₀, rfl⟩ := Finset.mem_image.mp hr
          obtain ⟨r₁, hr₁, rfl⟩ := Finset.mem_image.mp hr'
          rw [hok.2 r₀ hr₀ r₁ hr₁ hconf]
    · cases h
  · cases h

omit [DecidableEq ι] [Fintype ι] in
/-- **A delete finds nothing the second time.** -/
theorem deleteWhere_again (t : UniqueTable σ uniques) (wheres : List (Σ i, V i)) :
    (t.deleteWhere wheres).deleteWhere wheres = t.deleteWhere wheres := by
  ext1
  dsimp only [deleteWhere, Table.deleteWhere]
  rw [Finset.filter_filter]
  simp only [and_self]

end UniqueTable

end WalStream.Lib

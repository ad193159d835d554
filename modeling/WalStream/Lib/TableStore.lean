/-
A table with a primary key, as a store of rows by key.

The statements that select by key act on the store as its operations do, whatever the table:
`INSERT … ON CONFLICT DO NOTHING` leaves a row that is there alone, `UPDATE` and `DELETE` do
nothing to one that is not. They fail only where a key would be null or change.

Nothing here names a particular program.
-/
import WalStream.Lib.Redo
import WalStream.Lib.Table

set_option autoImplicit false

namespace WalStream.Lib

variable {ι : Type} {V : ι → Type}

/-! ## Patches

An `UPDATE` that sets some columns is a function on rows. Composed, the later one wins, and one
that has been overwritten is as if it had not been: which is all that playing a history again
needs of it. -/

/-- Values for some columns. -/
@[ext] structure Patch (V : ι → Type) where
  cells : Row V

instance : Monoid (Patch V) where
  mul p q := ⟨fun i => (p.cells i).or (q.cells i)⟩
  one := ⟨fun _ => none⟩
  mul_assoc _ _ _ := Patch.ext (funext fun _ => Option.or_assoc)
  one_mul _ := Patch.ext (funext fun _ => Option.none_or)
  mul_one _ := Patch.ext (funext fun _ => Option.or_none)

/-- The columns that have a value are set, the others keep theirs. -/
instance : MulAction (Patch V) (Row V) where
  smul p r := fun i => (p.cells i).or (r i)
  one_smul _ := funext fun _ => Option.none_or
  mul_smul _ _ _ := funext fun _ => Option.or_assoc

/-- The later patch wins, column by column. -/
theorem Patch.mul_cells (p q : Patch V) (i : ι) : (p * q).cells i = (p.cells i).or (q.cells i) :=
  rfl

/-- A patched row has the patch's value where there is one. -/
theorem Patch.smul_apply (p : Patch V) (r : Row V) (i : ι) : (p • r) i = (p.cells i).or (r i) := rfl

/-- A patch that has been overwritten does not come back. This is the law `Lib.Redo` asks of
patches, and the reason why an `UPDATE` can be played again too early. -/
theorem Patch.mul_mul_self (p q : Patch V) : p * q * p = p * q := by
  ext i x
  rw [mul_cells, mul_cells]
  cases p.cells i with
  | some y => rfl
  | none => rw [Option.or_none]

variable [DecidableEq ι] {σ : TableSchema V}

/-- The assignments of an `UPDATE`, as a patch. The list of columns has to have them all, and
those without a value drop out. -/
theorem assign_eq_smul (new r : Row V) {is : List ι} (hall : ∀ i, i ∈ is) :
    assign (cells_of new is) r = (⟨new⟩ : Patch V) • r := by
  funext i
  rw [assign, assigned_cells_of new (hall i), Patch.smul_apply]
  cases hx : new i with
  | some x => simp [hx]
  | none => simp [hx]

/-! ## The rows by key

A table with its key as a function from keys to rows. The two views determine each other. -/

/-- An operation on the rows by key. -/
abbrev TableOp (V : ι → Type) := StoreOp (Row V) (Row V) (Patch V)

/-- The key columns of a row. -/
def TableSchema.keyOf (σ : TableSchema V) (r : Row V) : Row V :=
  fun i => if i ∈ σ.key then r i else none

/-- Rows have one key when their key columns agree. -/
theorem TableSchema.keyOf_eq_iff {r r' : Row V} : σ.keyOf r = σ.keyOf r' ↔ σ.SameKey r r' := by
  constructor
  · intro h i hi
    have heq := congrFun h i
    rwa [keyOf, keyOf, if_pos hi, if_pos hi] at heq
  · intro h
    funext i
    by_cases hi : i ∈ σ.key
    · rw [keyOf, keyOf, if_pos hi, if_pos hi, h i hi]
    · rw [keyOf, keyOf, if_neg hi, if_neg hi]

namespace Table

variable {t t' : Table σ} {k r new old : Row V} {p : Patch V}

open Classical in
/-- The row of a key, if the table has one. -/
noncomputable def contents (t : Table σ) (k : Row V) : Option (Row V) :=
  if h : ∃ r ∈ t.rows, σ.keyOf r = k then some h.choose else none

/-- The row of a key, in terms of the rows of the table. It is at most one, by the constraint
the table carries. -/
theorem contents_eq_some_iff : t.contents k = some r ↔ r ∈ t.rows ∧ σ.keyOf r = k := by
  constructor
  · intro h
    rw [contents] at h
    split at h
    · rename_i hex
      obtain rfl := Option.some.inj h
      exact hex.choose_spec
    · cases h
  · intro h
    have hex : ∃ r ∈ t.rows, σ.keyOf r = k := ⟨r, h⟩
    rw [contents, dif_pos hex, Option.some.injEq]
    refine t.key_unique _ hex.choose_spec.1 r h.1 (TableSchema.keyOf_eq_iff.mp ?_)
    rw [hex.choose_spec.2, h.2]

/-- Every row is found under its key. -/
theorem contents_of_mem (h : r ∈ t.rows) : t.contents (σ.keyOf r) = some r :=
  contents_eq_some_iff.mpr ⟨h, rfl⟩

/-- To know the store of a table it is enough to know which rows it has. The three statements
are computed by this. -/
theorem contents_eq {f : Row V → Option (Row V)}
    (h : ∀ k r, f k = some r ↔ r ∈ t.rows ∧ σ.keyOf r = k) : t.contents = f :=
  funext fun k => Option.ext fun r => contents_eq_some_iff.trans (h k r).symm

/-- A table is its rows by key. -/
theorem contents_injective (h : t.contents = t'.contents) : t = t' := by
  ext r
  constructor
  · intro hr
    exact (contents_eq_some_iff.mp (h ▸ contents_of_mem hr)).1
  · intro hr
    exact (contents_eq_some_iff.mp (h ▸ contents_of_mem hr)).1

/-! ## The statements

One lemma for each statement, of the form that `Lib.Redo` asks for: it acts on the cell of one
key, and on that as an operation does. -/

variable [Fintype ι] [∀ i, DecidableEq (V i)]

/-- A table that has been truncated is the empty store. -/
theorem contents_truncate : (Table.truncate σ).contents = (.clear : TableOp V).apply t.contents :=
  contents_eq fun k r => by simp [StoreOp.apply, StoreOp.at_key, CellOp.run, truncate]

/-- `INSERT … ON CONFLICT DO NOTHING`. -/
theorem contents_insertIgnore {cells : List (Σ i, V i)} (hnodup : (cells.map Sigma.fst).Nodup)
    (hnew : assign cells σ.dflt = new) (hnull : σ.KeyNotNull new) :
    ∃ t', t.insertIgnore cells = some t' ∧
      t'.contents = (.insert (σ.keyOf new) new : TableOp V).apply t.contents := by
  subst hnew
  rw [insertIgnore, if_pos hnodup, dif_pos hnull]
  by_cases hconf : ∃ r ∈ t.rows, σ.SameKey (assign cells σ.dflt) r
  · refine ⟨t, dif_pos hconf, ?_⟩
    obtain ⟨r, hr, hkey⟩ := hconf
    funext k
    rw [StoreOp.apply, StoreOp.at_key]
    split
    · -- the key is taken
      rename_i hk
      rw [← hk, TableSchema.keyOf_eq_iff.mpr hkey, contents_of_mem hr]
      rfl
    · rfl
  · refine ⟨_, dif_neg hconf, contents_eq fun k r => ?_⟩
    -- the key is free, and its cell is the only one to change
    have hfree : t.contents (σ.keyOf (assign cells σ.dflt)) = none := by
      rw [Option.eq_none_iff_forall_ne_some]
      intro r hr
      obtain ⟨hmem, hkey⟩ := contents_eq_some_iff.mp hr
      exact hconf ⟨r, hmem, TableSchema.keyOf_eq_iff.mp hkey.symm⟩
    rw [StoreOp.apply, StoreOp.at_key, insertRow, Finset.mem_insert]
    split
    · rename_i hk
      subst hk
      rw [hfree]
      constructor
      · rintro ⟨rfl⟩
        exact ⟨Or.inl rfl, rfl⟩
      · rintro ⟨rfl | hr, hkey⟩
        · rfl
        · rw [← hkey, contents_of_mem hr] at hfree
          cases hfree
    · rename_i hk
      rw [CellOp.run, contents_eq_some_iff]
      constructor
      · exact fun h => ⟨Or.inr h.1, h.2⟩
      · rintro ⟨rfl | hr, hkey⟩
        · exact absurd hkey hk
        · exact ⟨hr, hkey⟩

/-- `UPDATE … SET … WHERE …`, of the row with a key and not of the key. -/
theorem contents_updateWhere {sets wheres : List (Σ i, V i)}
    (hnodup : (sets.map Sigma.fst).Nodup) (hset : ∀ r, assign sets r = p • r)
    (hwhere : ∀ r, satisfies wheres r = true ↔ σ.SameKey old r)
    (hkept : ∀ r, σ.SameKey old r → σ.SameKey r (p • r)) :
    ∃ t', t.updateWhere sets wheres = some t' ∧
      t'.contents = (.update (σ.keyOf old) p : TableOp V).apply t.contents := by
  -- the row with the old key is assigned to, and keeps its key; so no two rows come to have one
  -- key
  have hkey : ∀ r, σ.SameKey r (if satisfies wheres r then assign sets r else r) := by
    intro r
    split
    · rename_i hs
      rw [hset]
      exact hkept r ((hwhere r).mp hs)
    · exact fun _ _ => rfl
  have hcond : (∀ r ∈ t.rows, σ.KeyNotNull (if satisfies wheres r then assign sets r else r)) ∧
      ∀ r ∈ t.rows, ∀ r' ∈ t.rows, σ.SameKey (if satisfies wheres r then assign sets r else r)
        (if satisfies wheres r' then assign sets r' else r') → r = r' := by
    constructor
    · intro r hr i hi
      rw [← hkey r i hi]
      exact t.key_not_null r hr i hi
    · intro r hr r' hr' hsame
      refine t.key_unique r hr r' hr' fun i hi => ?_
      rw [hkey r i hi, hkey r' i hi]
      exact hsame i hi
  rw [updateWhere, if_pos hnodup]
  refine ⟨_, dif_pos hcond, contents_eq fun k r => ?_⟩
  -- cell by cell: that of the old key, and any other
  rw [StoreOp.apply, StoreOp.at_key, Finset.mem_image]
  split
  · rename_i hk
    subst hk
    rw [CellOp.run, Option.map_eq_some_iff]
    constructor
    · rintro ⟨r, hr, rfl⟩
      obtain ⟨hmem, hr⟩ := contents_eq_some_iff.mp hr
      have hsame := TableSchema.keyOf_eq_iff.mp hr.symm
      refine ⟨⟨r, hmem, ?_⟩, ?_⟩
      · rw [if_pos ((hwhere r).mpr hsame), hset]
      · rw [← hr]
        exact (TableSchema.keyOf_eq_iff.mpr (hkept r hsame)).symm
    · rintro ⟨⟨r, hmem, rfl⟩, hr⟩
      rw [← TableSchema.keyOf_eq_iff.mpr (hkey r)] at hr
      refine ⟨r, contents_eq_some_iff.mpr ⟨hmem, hr⟩, ?_⟩
      rw [if_pos ((hwhere r).mpr (TableSchema.keyOf_eq_iff.mp hr.symm)), hset]
  · rename_i hk
    rw [CellOp.run, contents_eq_some_iff]
    constructor
    · rintro ⟨hmem, rfl⟩
      refine ⟨⟨r, hmem, if_neg fun hs => hk ?_⟩, rfl⟩
      exact TableSchema.keyOf_eq_iff.mpr ((hwhere r).mp hs)
    · rintro ⟨⟨r, hmem, rfl⟩, hr⟩
      rw [← TableSchema.keyOf_eq_iff.mpr (hkey r)] at hr
      have hother : ¬ satisfies wheres r := by
        intro hs
        exact hk ((TableSchema.keyOf_eq_iff.mpr ((hwhere r).mp hs)).trans hr)
      rw [if_neg hother]
      exact ⟨hmem, hr⟩

/-- `DELETE … WHERE …`, of the row with a key. -/
theorem contents_deleteWhere {wheres : List (Σ i, V i)}
    (hwhere : ∀ r, satisfies wheres r = true ↔ σ.SameKey old r) :
    (t.deleteWhere wheres).contents = (.remove (σ.keyOf old) : TableOp V).apply t.contents := by
  refine contents_eq fun k r => ?_
  rw [StoreOp.apply, StoreOp.at_key, deleteWhere, Finset.mem_filter, hwhere,
    ← TableSchema.keyOf_eq_iff]
  split
  · rename_i hk
    subst hk
    constructor
    · intro h
      cases h
    · rintro ⟨⟨_, hother⟩, hr⟩
      exact absurd hr.symm hother
  · rename_i hk
    rw [CellOp.run, contents_eq_some_iff]
    constructor
    · rintro ⟨hmem, rfl⟩
      exact ⟨⟨hmem, hk⟩, rfl⟩
    · rintro ⟨⟨hmem, _⟩, hr⟩
      exact ⟨hmem, hr⟩

end Table

end WalStream.Lib

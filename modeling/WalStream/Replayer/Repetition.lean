/-
A job that is run again, or taken over where the last worker stopped, applies changes the
target has seen.

The statements of the applier are made for that: an `INSERT` on a key that is there does
nothing and is answered `True`, as does an `UPDATE` or a `DELETE` of a key that is not. So
the history can be applied again, on the state the later changes have led to. In between the
target may be in a state the source never was in, but when every worker is through it is
where the source is. An update that changes the key is the exception.
-/
import WalStream.Lib.TableStore
import WalStream.Replayer.Convergence

set_option autoImplicit false

namespace WalStream.Replayer

open Lib Ingest

variable {n : Nat} {V : Fin n → Type} {σ : TableSchema V}

/-- An update leaves the key as it is. One that changes it is two operations on the rows by key
at once, and applied again it does not find the row it moved. -/
def KeepsKey (σ : TableSchema V) : RowOp V → Prop
  | .update old new => σ.SameKey old new
  | _ => True

/-- The row the operation is about has a key. PostgreSQL asks for it of every row of the source,
so it is known of what the source has done. -/
def KeyComplete (σ : TableSchema V) : RowOp V → Prop
  | .insert new => σ.KeyNotNull new
  | .update old _ => σ.KeyNotNull old
  | .delete old => σ.KeyNotNull old
  | .truncate => True

/-- What the statement for the operation does to the rows by key. -/
def table_op (σ : TableSchema V) : RowOp V → TableOp V
  | .insert new => .insert (σ.keyOf new) new
  | .update old new => .update (σ.keyOf old) ⟨new⟩
  | .delete old => .remove (σ.keyOf old)
  | .truncate => .clear

variable [∀ i, DecidableEq (V i)] {host : Host} {src : SourceTable V} {cat : Catalog V}
variable {t t' : Table σ} {c : Change V} {op : RowOp V}

/-! ## One change -/

/-- An operation that the source has performed was about a row of the table, and rows have keys. -/
theorem keyComplete_of_step (h : t.step op = some t') : KeyComplete σ op := by
  cases op with
  | insert new => exact Table.keyNotNull_of_insert h
  | update old new => exact Table.keyNotNull_of_update h
  | delete old => exact Table.keyNotNull_of_delete h
  | truncate => trivial

/-- **A change on any table**: the applier succeeds on the record, and does to the rows what
the operation does. -/
theorem apply_again (h : Denotes host src cat) (hnulls : NullsKept σ c.op)
    (hkept : KeepsKey σ c.op) (hcomplete : KeyComplete σ c.op) (commit_time : Int) (u : Table σ) :
    ∃ u', apply cat u (record_of host src σ c commit_time) = (u', true) ∧
      u'.contents = (table_op σ c.op).apply u.contents := by
  obtain ⟨op, lsn, now_ms⟩ := c
  have hall : ∀ i, i ∈ List.finRange n := List.mem_finRange
  have hnodup : ∀ r : Row V, ((cells_of r (List.finRange n)).map Sigma.fst).Nodup := fun r =>
    (map_fst_cells_of_sublist r _).nodup (List.nodup_finRange n)
  cases op with
  | insert new =>
      have hempty : (Dict.ofPairs (texts host src new (List.finRange n))).isEmpty = false :=
        isEmpty_texts h.name_injective (List.nodup_finRange n) hcomplete fun i _ => hall i
      obtain ⟨u', hins, hu'⟩ := Table.contents_insertIgnore (t := u) (hnodup new)
        (assign_cells_of new σ.dflt hall hnulls) hcomplete
      refine ⟨u', ?_, hu'⟩
      simp [apply, record_of, apply_insert, hempty, run, execute, h.table,
        mapM_cell_quoted_cells h new (List.nodup_finRange n), hins]
  | update old new =>
      have hnotnull : σ.KeyNotNull new := fun i hi => hkept i hi ▸ hcomplete i hi
      have hnew : (Dict.ofPairs (texts host src new (List.finRange n))).isEmpty = false :=
        isEmpty_texts h.name_injective (List.nodup_finRange n) hnotnull fun i _ => hall i
      have hold : (Dict.ofPairs (texts host src old (SourceTable.key_columns σ))).isEmpty
          = false :=
        isEmpty_texts h.name_injective (nodup_key_columns σ) hcomplete
          fun i hi => mem_key_columns.mpr hi
      -- what is written to the key columns of the selected row is there already
      have hsame : ∀ r, σ.SameKey old r → σ.SameKey r ((⟨new⟩ : Patch V) • r) := by
        intro r hr i hi
        have hnow : new i = r i := (hkept i hi).symm.trans (hr i hi)
        calc r i = (new i).or (r i) := by rw [hnow, Option.or_self]
          _ = ((⟨new⟩ : Patch V) • r) i := rfl
      obtain ⟨u', hupd, hu'⟩ := Table.contents_updateWhere (t := u) (hnodup new)
        (fun r => assign_eq_smul new r hall) (satisfies_key_columns hcomplete) hsame
      refine ⟨u', ?_, hu'⟩
      simp [apply, record_of, apply_update, hnew, hold, run, execute, h.table,
        mapM_cell_quoted_cells h new (List.nodup_finRange n),
        mapM_cell_quoted_cells h old (nodup_key_columns σ), hupd]
  | delete old =>
      have hold : (Dict.ofPairs (texts host src old (SourceTable.key_columns σ))).isEmpty
          = false :=
        isEmpty_texts h.name_injective (nodup_key_columns σ) hcomplete
          fun i hi => mem_key_columns.mpr hi
      refine ⟨_, ?_, Table.contents_deleteWhere (t := u) (satisfies_key_columns hcomplete)⟩
      simp [apply, record_of, apply_delete, hold, run, execute, h.table,
        mapM_cell_quoted_cells h old (nodup_key_columns σ)]
  | truncate =>
      refine ⟨_, ?_, Table.contents_truncate (t := u)⟩
      simp [apply, record_of, apply_truncate, run, execute, h.table]

/-- On the table the source performs the operation on, the target becomes what the source
becomes. -/
theorem contents_of_step (h : Denotes host src cat) (hnulls : NullsKept σ c.op)
    (hkept : KeepsKey σ c.op) (hstep : t.step c.op = some t') :
    t'.contents = (table_op σ c.op).apply t.contents := by
  obtain ⟨u', happly, hu'⟩ :=
    apply_again h hnulls hkept (keyComplete_of_step hstep) 0 t
  rw [apply_record_of h hnulls hstep] at happly
  rw [(Prod.mk.inj happly).1]
  exact hu'

/-- An operation the source performs does what it says: a row it inserts is not there, one it
updates is. -/
theorem possible_of_step (h : t.step op = some t') (k : Row V) :
    ((table_op σ op).at_key k).Possible (t.contents k) := by
  cases op with
  | insert new =>
      rw [table_op, StoreOp.at_key]
      split
      · rename_i hk
        subst hk
        rw [Table.step] at h
        split at h
        · rename_i hok
          refine Option.eq_none_iff_forall_ne_some.mpr fun r hr => ?_
          obtain ⟨hmem, hkey⟩ := Table.contents_eq_some_iff.mp hr
          exact hok.2 r hmem (TableSchema.keyOf_eq_iff.mp hkey.symm)
        · cases h
      · trivial
  | update old new =>
      rw [table_op, StoreOp.at_key]
      split
      · rename_i hk
        subst hk
        rw [Table.step] at h
        split at h
        · rename_i hok
          exact Option.ne_none_iff_exists'.mpr ⟨old, Table.contents_of_mem hok.1⟩
        · cases h
      · trivial
  | delete old =>
      rw [table_op, StoreOp.at_key]
      split <;> trivial
  | truncate => trivial

/-! ## A history -/

omit [∀ i, DecidableEq (V i)] in
/-- Where no value is written as `NULL` the records are those of the operations, column by
column. What becomes of a `NULL` is the subject of `Replayer.Convergence`. -/
theorem records_of_eq (h : ∀ i x, src.encode i x ≠ .null) (changes : List (Change V)) :
    records_of host src σ changes
      = some (changes.map fun c => record_of host src σ c c.now_ms) := by
  induction changes with
  | nil => rfl
  | cons c changes ih => simp [records_of, parse_change_json h c, ih]

/-- What the source has done, on the rows by key. -/
theorem source_history (h : Denotes host src cat) {changes : List (Change V)}
    (hnulls : ∀ c ∈ changes, NullsKept σ c.op) (hkeys : ∀ c ∈ changes, KeepsKey σ c.op)
    (hsource : t.steps (changes.map Change.op) = some t') :
    StoreOp.Legal (changes.map fun c => table_op σ c.op) t.contents ∧
      t'.contents = StoreOp.play (changes.map fun c => table_op σ c.op) t.contents ∧
      ∀ c ∈ changes, KeyComplete σ c.op := by
  induction changes generalizing t with
  | nil =>
      rw [List.map_nil, Table.steps, Option.some.injEq] at hsource
      exact ⟨fun _ => trivial, by rw [hsource]; rfl, fun _ h => absurd h List.not_mem_nil⟩
  | cons c changes ih =>
      rw [List.map_cons, Table.steps, Option.bind_eq_some_iff] at hsource
      obtain ⟨t₁, hstep, hrest⟩ := hsource
      obtain ⟨hlegal, hplay, hcomplete⟩ :=
        ih (fun c' hc' => hnulls c' (List.mem_cons_of_mem _ hc'))
          (fun c' hc' => hkeys c' (List.mem_cons_of_mem _ hc')) hrest
      rw [contents_of_step h (hnulls c (List.mem_cons_self ..)) (hkeys c (List.mem_cons_self ..))
        hstep] at hlegal hplay
      refine ⟨fun k => ⟨possible_of_step hstep k, hlegal k⟩, hplay, ?_⟩
      intro c' hc'
      rcases List.mem_cons.mp hc' with rfl | hmem
      · exact keyComplete_of_step hstep
      · exact hcomplete c' hmem

/-- Changes of the history, in whatever order and number, on any table. None of them fails,
since the applier answers `True` for a row that is there or is not. -/
theorem apply_all_again (h : Denotes host src cat) (played : List (Change V))
    (hnulls : ∀ c ∈ played, NullsKept σ c.op) (hkeys : ∀ c ∈ played, KeepsKey σ c.op)
    (hcomplete : ∀ c ∈ played, KeyComplete σ c.op) (u : Table σ) :
    ∃ u', apply_all cat u (played.map fun c => record_of host src σ c c.now_ms)
        = (u', List.replicate played.length true) ∧
      u'.contents = StoreOp.play (played.map fun c => table_op σ c.op) u.contents := by
  induction played generalizing u with
  | nil => exact ⟨u, rfl, rfl⟩
  | cons c played ih =>
      have hmem : c ∈ c :: played := List.mem_cons_self ..
      obtain ⟨u₁, happly, hu₁⟩ :=
        apply_again h (hnulls c hmem) (hkeys c hmem) (hcomplete c hmem) c.now_ms u
      obtain ⟨u', hrest, hu'⟩ := ih (fun c' hc' => hnulls c' (List.mem_cons_of_mem _ hc'))
        (fun c' hc' => hkeys c' (List.mem_cons_of_mem _ hc'))
        (fun c' hc' => hcomplete c' (List.mem_cons_of_mem _ hc')) u₁
      refine ⟨u', ?_, ?_⟩
      · rw [List.map_cons, apply_all, happly]
        dsimp only
        rw [hrest]
        rfl
      · rw [hu', hu₁]
        rfl

/-- Every `apply` of a change that has been applied, or that comes next, succeeds. -/
theorem apply_replayed (h : Denotes host src cat) {changes : List (Change V)}
    (hnulls : ∀ c ∈ changes, NullsKept σ c.op) (hkeys : ∀ c ∈ changes, KeepsKey σ c.op)
    (hsource : t.steps (changes.map Change.op) = some t') (played : List Nat) :
    ∃ u', apply_all cat t
        (replayed (changes.map fun c => record_of host src σ c c.now_ms) played)
      = (u', List.replicate
          (replayed (changes.map fun c => record_of host src σ c c.now_ms) played).length true) ∧
      u'.contents = StoreOp.play
        (replayed (changes.map fun c => table_op σ c.op) played) t.contents := by
  obtain ⟨-, -, hcomplete⟩ := source_history h hnulls hkeys hsource
  rw [replayed_map, replayed_map, List.length_map]
  exact apply_all_again h (replayed changes played)
    (fun c hc => hnulls c (mem_of_mem_replayed hc))
    (fun c hc => hkeys c (mem_of_mem_replayed hc))
    (fun c hc => hcomplete c (mem_of_mem_replayed hc)) t

/-- **The target is the source**, where the last time through the history is through. The
theorem on stores is `Lib.Redo`'s; here its operations are those of the applier's statements, on
the rows by key. -/
theorem target_eq_of_mark (h : Denotes host src cat) {changes : List (Change V)}
    (hnulls : ∀ c ∈ changes, NullsKept σ c.op) (hkeys : ∀ c ∈ changes, KeepsKey σ c.op)
    (hsource : t.steps (changes.map Change.op) = some t') {played : List Nat}
    (hplayed : ∀ i ∈ played, i < changes.length) (hmark : mark played = changes.length) :
    (apply_all cat t
      (replayed (changes.map fun c => record_of host src σ c c.now_ms) played)).1 = t' := by
  obtain ⟨hlegal, hplay, -⟩ := source_history h hnulls hkeys hsource
  obtain ⟨u', happly, hu'⟩ := apply_replayed h hnulls hkeys hsource played
  rw [happly]
  refine Table.contents_injective ?_
  rw [hu', hplay]
  rw [← List.length_map fun c : Change V => table_op σ c.op] at hplayed hmark
  exact StoreOp.play_replayed Patch.mul_mul_self hlegal hplayed hmark

/-- **Replaying again converges.** The source performs a history of changes from `t`, which
gives `NULL` only where leaving the column out comes to the same and leaves the keys of
updated rows as they are. However many workers apply it to a target that starts equal to the
source, at the same time or one after the other, each from the start or from where another
has been, and in whatever order their calls are served: every `apply` succeeds, and once all
workers have reached the end the target is equal to the source. -/
theorem repeated_replay_converges (h : Denotes host src cat) (t t' : Table σ)
    (changes : List (Change V)) (hnulls : ∀ c ∈ changes, NullsKept σ c.op)
    (hkeys : ∀ c ∈ changes, KeepsKey σ c.op)
    (hsource : t.steps (changes.map Change.op) = some t')
    {turns : List (Replay × Turn)} {r : Replay}
    (hrun : Run (Replay.step changes.length) .initial turns r) :
    ∃ records, records_of host src σ changes = some records ∧
      (apply_all cat t (replayed records r.played)).2
        = List.replicate (replayed records r.played).length true ∧
      (r.Done changes.length → (apply_all cat t (replayed records r.played)).1 = t') := by
  have hcaught := Replay.caught_of_run hrun
  refine ⟨_, records_of_eq h.encode_ne_null changes, ?_, fun hdone => ?_⟩
  · obtain ⟨u', happly, -⟩ := apply_replayed h hnulls hkeys hsource r.played
    rw [happly]
  · exact target_eq_of_mark h hnulls hkeys hsource hcaught.played (hcaught.mark_of_done hdone)

/-- A worker inserts a row, changes its note and stalls; its successor starts over, deletes
the row, and then the first one goes on. -/
theorem repeated_replay_converges_note :
    ∃ records, records_of bareHost noteSource noteSchema
        [⟨.insert (noteRow "a" (some "x")), 100, 0⟩,
          ⟨.update (noteRow "a" (some "x")) (noteRow "a" (some "y")), 101, 0⟩,
          ⟨.delete (noteRow "a" (some "y")), 102, 0⟩]
        = some records ∧
      ∃ turns r, Run (Replay.step 3) .initial turns r ∧ r.played = [0, 1, 0, 1, 2, 2] ∧
        (apply_all noteCatalog (.truncate noteSchema) (replayed records r.played)).2
          = List.replicate (replayed records r.played).length true ∧
        (apply_all noteCatalog (.truncate noteSchema) (replayed records r.played)).1.rows
          = ∅ := by
  have hsource : ((Table.truncate noteSchema).steps
      [.insert (noteRow "a" (some "x")),
        .update (noteRow "a" (some "x")) (noteRow "a" (some "y")),
        .delete (noteRow "a" (some "y"))]).map Table.rows = some ∅ := by decide
  obtain ⟨t', ht', hrows⟩ := Option.map_eq_some_iff.mp hsource
  obtain ⟨turns, r, hrun, hplayed, hdone⟩ :
      ∃ turns r, Run (Replay.step 3) .initial turns r ∧ r.played = [0, 1, 0, 1, 2, 2] ∧
        r.Done 3 :=
    exists_run_of_exec (p := fun r : Replay => r.played = [0, 1, 0, 1, 2, 2] ∧ r.Done 3)
      [.play 0, .play 0, .join 0 0, .play 1, .play 1, .play 1, .play 0] (by decide)
  obtain ⟨records, hrecords, hall, hend⟩ := repeated_replay_converges note_denotes
    (.truncate noteSchema) t'
    [⟨.insert (noteRow "a" (some "x")), 100, 0⟩,
      ⟨.update (noteRow "a" (some "x")) (noteRow "a" (some "y")), 101, 0⟩,
      ⟨.delete (noteRow "a" (some "y")), 102, 0⟩]
    (by
      simp only [List.mem_cons, List.not_mem_nil, or_false, forall_eq_or_imp, forall_eq]
      exact ⟨by decide, by decide, by decide⟩)
    (by
      simp only [List.mem_cons, List.not_mem_nil, or_false, forall_eq_or_imp, forall_eq]
      exact ⟨trivial, by unfold KeepsKey TableSchema.SameKey; decide, trivial⟩)
    ht' hrun
  exact ⟨records, hrecords, turns, r, hrun, hplayed, hall, by rw [hend hdone, hrows]⟩

/-- Applied again from the start, an insert brings back a key that an update has changed
since, and the update of it fails. -/
theorem repeated_key_update_fails :
    ∃ records, records_of bareHost noteSource noteSchema
        [⟨.insert (noteRow "a" none), 100, 0⟩,
          ⟨.update (noteRow "a" none) (noteRow "b" none), 101, 0⟩] = some records ∧
      (apply_all noteCatalog (.truncate noteSchema) (records ++ records)).2
        = [true, true, true, false] ∧
      (apply_all noteCatalog (.truncate noteSchema) (records ++ records)).1.rows
        = {noteRow "a" none, noteRow "b" none} := by
  refine ⟨_, rfl, by decide, by decide⟩

end WalStream.Replayer

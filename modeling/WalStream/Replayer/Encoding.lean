/-
The row text under the deduplication hash, `data_str`, as an encoding of rows.

The columns of a row are written `name=value`, sorted by name and joined by `:`. The text
depends on the row alone and not on the order in which its columns are enumerated. It does
not determine the row: neither `=` nor `:` is escaped, so the text of a row with two or
more columns is always also the text of the row whose first column holds all of it, and
the text of one column that contains an `=` can be cut at another `=`. What is left are
the rows with at most one column and no `=`, and pairs of rows that keep the separators
out of their names and `:` out of their values.
-/
import WalStream.Replayer.Service
import WalStream.Lib.Joined

set_option autoImplicit false

namespace WalStream.Replayer

open Lib

/-! ## The text of a row

The dictionary is put in order and written as one text, with separators that its names and
values may contain as well. -/

/-- The entries of a row in the order `sorted(data.items())` puts them. -/
def sorted_items (data : Dict String String) : List (String × String) :=
  data.entries.insertionSort fun a b => a.1 ≤ b.1

/-- `data_str` of a row. -/
def row_text (data : Dict String String) : String :=
  ":".intercalate ((sorted_items data).map fun e => e.1 ++ "=" ++ e.2)

/-- What is hashed for an event is the text of the row it carries. -/
theorem data_str_eq_row_text (event : ChangeRecord) :
    data_str event = row_text (if event.new.isEmpty then event.old else event.new) := rfl

/-- The row has at most one column, and neither its name nor its value contains `=`. -/
def Unmistakable (m : Dict String String) : Prop :=
  m.entries.length ≤ 1 ∧ ∀ e ∈ m.entries, '=' ∉ e.1.toList ∧ '=' ∉ e.2.toList

/-- No name of the row contains a separator, and no value contains `:`. -/
def SeparatorFree (m : Dict String String) : Prop :=
  ∀ e ∈ m.entries, (':' ∉ e.1.toList ∧ '=' ∉ e.1.toList) ∧ ':' ∉ e.2.toList

instance (m : Dict String String) : Decidable (Unmistakable m) :=
  inferInstanceAs (Decidable (m.entries.length ≤ 1 ∧
    ∀ e ∈ m.entries, '=' ∉ e.1.toList ∧ '=' ∉ e.2.toList))

instance (m : Dict String String) : Decidable (SeparatorFree m) :=
  inferInstanceAs (Decidable (∀ e ∈ m.entries,
    (':' ∉ e.1.toList ∧ '=' ∉ e.1.toList) ∧ ':' ∉ e.2.toList))

/-! ## Sorted entries

Two rows that are the same map have the same list of entries, whatever the order of enumeration. -/

variable {m m' : Dict String String}

theorem sorted_items_perm (m : Dict String String) : (sorted_items m).Perm m.entries :=
  List.perm_insertionSort _ _

theorem sorted_items_pairwise (m : Dict String String) :
    (sorted_items m).Pairwise fun a b => a.1 ≤ b.1 := by
  have htotal : Std.Total fun a b : String × String => a.1 ≤ b.1 :=
    ⟨fun a b => String.le_total a.1 b.1⟩
  have htrans : IsTrans (String × String) fun a b => a.1 ≤ b.1 :=
    ⟨fun _ _ _ => String.le_trans⟩
  exact List.pairwise_insertionSort _ _

/-- The sorted entries are the same exactly for the same map. -/
theorem sorted_items_eq_iff : sorted_items m = sorted_items m' ↔ Dict.SameMap m m' := by
  rw [Dict.sameMap_iff_perm]
  constructor
  · intro h
    exact (sorted_items_perm m).symm.trans (h ▸ sorted_items_perm m')
  · intro h
    refine List.Perm.eq_of_pairwise ?_ (sorted_items_pairwise m) (sorted_items_pairwise m')
      (((sorted_items_perm m).trans h).trans (sorted_items_perm m').symm)
    -- entries with equal names are one entry, since a name occurs once
    intro a b ha hb hab hba
    have ha' := (sorted_items_perm m).mem_iff.mp ha
    have hb' := h.mem_iff.mpr ((sorted_items_perm m').mem_iff.mp hb)
    exact List.inj_on_of_nodup_map m.nodup ha' hb' (String.le_antisymm hab hba)

/-! ## The text, character by character -/

/-- `name=value`. -/
def item_text (e : String × String) : List Char := e.1.toList ++ '=' :: e.2.toList

theorem mem_item_text (e : String × String) : '=' ∈ item_text e := by
  simp [item_text]

theorem row_text_toList (m : Dict String String) :
    (row_text m).toList = [':'].intercalate ((sorted_items m).map item_text) := by
  rw [row_text, String.toList_intercalate, List.map_map]
  congr 1
  apply List.map_congr_left
  intro e _
  simp [item_text]

/-- The text has an `=` for every column. -/
theorem length_le_count_row_text (m : Dict String String) :
    m.entries.length ≤ (row_text m).toList.count '=' := by
  have hmem : ∀ part ∈ (sorted_items m).map item_text, '=' ∈ part := by
    intro part hpart
    obtain ⟨e, _, rfl⟩ := List.mem_map.mp hpart
    exact mem_item_text e
  have hcount := length_le_count_joined (s := ':') hmem
  rw [List.length_map, (sorted_items_perm m).length_eq] at hcount
  rwa [row_text_toList]

/-- A dictionary with one entry. -/
theorem sorted_items_of_entries {e : String × String} (h : m.entries = [e]) :
    sorted_items m = [e] := by
  have hperm := sorted_items_perm m
  rw [h] at hperm
  exact List.perm_singleton.mp hperm

theorem row_text_singleton {e : String × String} (h : m.entries = [e]) :
    (row_text m).toList = item_text e := by
  rw [row_text_toList, sorted_items_of_entries h, List.map_singleton,
    List.intercalate_singleton]

/-- The row with the one column `k`. -/
def single_column (k v : String) : Dict String String := Dict.empty.set k v

theorem entries_single_column (k v : String) : (single_column k v).entries = [(k, v)] := rfl

/-! ## Rows whose text is theirs alone

One column without a further `=` can be cut out of the text in one way. -/

/-- The text of a row with at most one column and no `=` beside the one it is written
with is the text of no other row. -/
theorem sameMap_of_unmistakable (hm : Unmistakable m) (h : row_text m = row_text m') :
    Dict.SameMap m m' := by
  obtain ⟨hlen, hfree⟩ := hm
  have hcount := length_le_count_row_text m'
  rw [← h] at hcount
  match hitems : m.entries with
  | [] =>
      -- the text is empty, so the other row has no column either
      have hnone : m'.entries = [] := by
        have hempty : sorted_items m = [] := by
          have hperm := sorted_items_perm m
          rw [hitems] at hperm
          exact hperm.eq_nil
        rw [row_text_toList, hempty] at hcount
        simpa using hcount
      rw [Dict.sameMap_iff_perm, hitems, hnone]
  | [e] =>
      obtain ⟨hk, hv⟩ := hfree e (by simp [hitems])
      have hone : (row_text m).toList.count '=' = 1 := by
        rw [row_text_singleton hitems, item_text, List.count_append, List.count_cons_self,
          List.count_eq_zero_of_not_mem hk, List.count_eq_zero_of_not_mem hv]
      rw [hone] at hcount
      match hitems' : m'.entries with
      | [] =>
          have htext : (row_text m').toList = [] := by
            have hperm := sorted_items_perm m'
            rw [hitems'] at hperm
            rw [row_text_toList, hperm.eq_nil]
            rfl
          rw [← h, row_text_singleton hitems] at htext
          exact absurd htext (List.ne_nil_of_mem (mem_item_text e))
      | [e'] =>
          -- one `=` on both sides: the text is cut at the same place
          have htext := row_text_singleton hitems'
          rw [← h, row_text_singleton hitems, item_text, item_text,
            List.append_cons_inj_of_notMem hk hv] at htext
          have he : e = e' := Prod.ext (String.ext htext.1) (String.ext htext.2.2)
          rw [Dict.sameMap_iff_perm, hitems, hitems', he]
      | _ :: _ :: _ => rw [hitems'] at hcount; simp at hcount
  | _ :: _ :: _ => rw [hitems] at hlen; simp at hlen

/-! ## Rows that share their text

Everything else can be cut in two ways, and for each way there is a row. -/

/-- A row and the one-column row `k`, `v` with the same text are different rows as soon as
some column of the first is not that one. -/
theorem not_sameMap_single_column {e : String × String} {k v : String}
    (he : e ∈ m.entries) (hk : e.1 ≠ k) : ¬ Dict.SameMap m (single_column k v) := by
  intro h
  have hget := (Dict.get?_eq_some_iff m e.1 e.2).mpr he
  rw [h, Dict.get?_eq_some_iff, entries_single_column, List.mem_singleton] at hget
  exact hk (congrArg Prod.fst hget)

/-- **Merging.** A row with two or more columns has the text of a row with one. -/
theorem exists_collision_of_two (h : 2 ≤ m.entries.length) :
    ∃ m', row_text m = row_text m' ∧ ¬ Dict.SameMap m m' := by
  have hperm := sorted_items_perm m
  match hitems : sorted_items m with
  | [] => rw [← hperm.length_eq, hitems] at h; simp at h
  | [_] => rw [← hperm.length_eq, hitems] at h; simp at h
  | e₁ :: e₂ :: rest =>
      rw [hitems] at hperm
      -- the value of the first column swallows the others
      let v := String.ofList (e₁.2.toList ++ ':' :: [':'].intercalate ((e₂ :: rest).map item_text))
      refine ⟨single_column e₁.1 v, ?_, ?_⟩
      · apply String.toList_injective
        rw [row_text_singleton (entries_single_column _ _), row_text_toList, hitems]
        simp [v, item_text, List.intercalate_cons_cons]
      · have hnodup : ((e₁ :: e₂ :: rest).map Prod.fst).Nodup :=
          (hperm.map Prod.fst).nodup_iff.mpr m.nodup
        have hne : e₂.1 ≠ e₁.1 := by
          intro heq
          simp [heq] at hnodup
        exact not_sameMap_single_column (hperm.mem_iff.mp (by simp)) hne

/-- **Cutting elsewhere.** A single column that contains an `=` has the text of another. -/
theorem exists_collision_of_eq {e : String × String} (h : m.entries = [e])
    (heq : '=' ∈ e.1.toList ∨ '=' ∈ e.2.toList) :
    ∃ m', row_text m = row_text m' ∧ ¬ Dict.SameMap m m' := by
  have hcut : ∃ k v : String, item_text e = item_text (k, v) ∧ e.1 ≠ k := by
    rcases heq with hk | hv
    · obtain ⟨a, b, hab⟩ := List.append_of_mem hk
      refine ⟨String.ofList a, String.ofList (b ++ '=' :: e.2.toList), by simp [item_text, hab], ?_⟩
      intro hk'
      rw [hk'] at hab
      simp at hab
    · obtain ⟨a, b, hab⟩ := List.append_of_mem hv
      refine ⟨String.ofList (e.1.toList ++ '=' :: a), String.ofList b, by simp [item_text, hab], ?_⟩
      intro hk'
      have hlist := congrArg String.toList hk'
      simp at hlist
  obtain ⟨k, v, htext, hne⟩ := hcut
  refine ⟨single_column k v, ?_, not_sameMap_single_column (by rw [h]; simp) hne⟩
  apply String.toList_injective
  rw [row_text_singleton h, row_text_singleton (entries_single_column k v), htext]

/-! ## Rows that keep the separators out

Between two rows that both keep the separators out the text is enough. This is a condition on
both, where the one above is on one of them alone. -/

theorem map_item_text_injective {es es' : List (String × String)}
    (h : ∀ e ∈ es, '=' ∉ e.1.toList) (h' : ∀ e ∈ es', '=' ∉ e.1.toList)
    (heq : es.map item_text = es'.map item_text) : es = es' := by
  induction es generalizing es' with
  | nil => simpa using heq
  | cons e es ih =>
      cases es' with
      | nil => simp at heq
      | cons e' es' =>
          rw [List.forall_mem_cons] at h h'
          simp only [List.map_cons, List.cons.injEq] at heq
          -- the name ends at the first `=`
          have hcut : e.1.toList = e'.1.toList ∧ e.2.toList = e'.2.toList := by
            have hspan := congrArg (List.takeWhile (· ≠ '=')) heq.1
            have htake : ∀ x : String × String, '=' ∉ x.1.toList →
                (item_text x).takeWhile (· ≠ '=') = x.1.toList := by
              intro x hx
              exact takeWhile_until _ hx
            rw [htake e h.1, htake e' h'.1] at hspan
            have hrest := heq.1
            rw [item_text, item_text, hspan] at hrest
            exact ⟨hspan, by simpa using hrest⟩
          rw [ih h.2 h'.2 heq.2, Prod.ext (String.ext hcut.1) (String.ext hcut.2)]

/-- Between rows that keep the separators out the text is injective. -/
theorem sameMap_of_separatorFree (hm : SeparatorFree m) (hm' : SeparatorFree m')
    (h : row_text m = row_text m') : Dict.SameMap m m' := by
  have hfree : ∀ {x : Dict String String}, SeparatorFree x →
      ∀ part ∈ (sorted_items x).map item_text, ':' ∉ part := by
    intro x hx part hpart
    obtain ⟨e, he, rfl⟩ := List.mem_map.mp hpart
    obtain ⟨hname, hvalue⟩ := hx e ((sorted_items_perm x).mem_iff.mp he)
    simp [item_text, hname.1, hvalue]
  have hname : ∀ {x : Dict String String}, SeparatorFree x →
      ∀ e ∈ sorted_items x, '=' ∉ e.1.toList := by
    intro x hx e he
    exact (hx e ((sorted_items_perm x).mem_iff.mp he)).1.2
  have htext := congrArg String.toList h
  rw [row_text_toList, row_text_toList] at htext
  rw [← sorted_items_eq_iff]
  apply map_item_text_injective (hname hm) (hname hm')
  -- joined texts of parts without `:` have the same parts, unless one side has none
  have hempty : ∀ {x y : Dict String String}, (sorted_items x).map item_text = [] →
      [':'].intercalate ((sorted_items x).map item_text)
        = [':'].intercalate ((sorted_items y).map item_text) →
      (sorted_items y).map item_text = [] := by
    intro x y hx hxy
    have hcount := length_le_count_row_text y
    rw [row_text_toList, ← hxy, hx, ← (sorted_items_perm y).length_eq] at hcount
    simpa using hcount
  by_cases hnil : (sorted_items m).map item_text = []
  · rw [hnil, hempty hnil htext]
  · have hnil' : (sorted_items m').map item_text ≠ [] := fun hx => hnil (hempty hx htext.symm)
    rw [joined_eq_joined_iff hnil hnil', pieces_of_free (hfree hm), pieces_of_free (hfree hm')]
      at htext
    exact htext

/-! ## The encoding -/

/-- Two rows with one text: a value that contains the separators. -/
theorem row_text_collision :
    ¬ ((∀ m m', row_text m = row_text m' → Dict.SameMap m m') ∧
      ∀ m m', Dict.SameMap m m' → row_text m = row_text m') := by
  rintro ⟨hinj, -⟩
  have hsame := hinj (single_column "a" "1:b=2") ((single_column "a" "1").set "b" "2") (by decide)
  exact absurd (hsame "b") (by decide)

/-- **The row encoding.** The text does not depend on the order of enumeration. It
determines a row among all rows exactly when the row has at most one column and no `=` in
it; and it determines the row among those that keep the separators out. -/
theorem row_text_injective_exact (m m' : Dict String String) :
    (Dict.SameMap m m' → row_text m = row_text m') ∧
    ((∀ m', row_text m = row_text m' → Dict.SameMap m m') ↔ Unmistakable m) ∧
    (SeparatorFree m → SeparatorFree m' → row_text m = row_text m' → Dict.SameMap m m') := by
  refine ⟨?_, ?_, sameMap_of_separatorFree⟩
  · intro h
    rw [row_text, row_text, sorted_items_eq_iff.mpr h]
  · constructor
    · -- a row that is taken for no other has one column without an `=`, or none
      intro halone
      by_contra hmistakable
      have hcollision : ∃ m', row_text m = row_text m' ∧ ¬ Dict.SameMap m m' := by
        by_cases hlen : m.entries.length ≤ 1
        · -- at most one column, so it is there and has an `=`
          have hex : ∃ e ∈ m.entries, '=' ∈ e.1.toList ∨ '=' ∈ e.2.toList := by
            by_contra hno
            refine hmistakable ⟨hlen, fun e he => ?_⟩
            exact not_or.mp fun heq => hno ⟨e, he, heq⟩
          obtain ⟨e, he, heq⟩ := hex
          have hone : m.entries = [e] := by
            obtain ⟨x, hx⟩ := List.length_eq_one_iff.mp
              (Nat.le_antisymm hlen (List.length_pos_of_mem he))
            rw [hx, List.mem_singleton] at he
            rw [hx, he]
          exact exists_collision_of_eq hone heq
        · exact exists_collision_of_two (by omega)
      obtain ⟨m', htext, hne⟩ := hcollision
      exact hne (halone m' htext)
    · intro hm m'
      exact sameMap_of_unmistakable hm

/-- The hypotheses are met: two rows with their columns in another order, one with a single
column, and two that keep the separators out. -/
theorem row_text_injective_sample :
    row_text ((single_column "b" "2").set "a" "1") = row_text ((single_column "a" "1").set "b" "2") ∧
    (∀ m', row_text (single_column "id" "7") = row_text m' →
      Dict.SameMap (single_column "id" "7") m') ∧
    Dict.SameMap ((single_column "b" "x=1").set "a" "1") ((single_column "a" "1").set "b" "x=1") := by
  have hsame : ∀ v w : String, Dict.SameMap ((single_column "b" v).set "a" w)
      ((single_column "a" w).set "b" v) := by
    intro v w k
    simp only [single_column, Dict.get?_set, Dict.get?_empty]
    by_cases ha : k = "a"
    · subst ha; simp
    · simp [ha]
  refine ⟨(row_text_injective_exact _ _).1 (hsame "2" "1"), ?_, ?_⟩
  · exact (row_text_injective_exact _ (single_column "id" "7")).2.1.mpr (by decide)
  · exact (row_text_injective_exact _ _).2.2 (by decide) (by decide) (by decide)

end WalStream.Replayer

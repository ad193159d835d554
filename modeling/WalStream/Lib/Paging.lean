/-
Pages of a sorted collection.

A collection is read page by page. Every page is cut out of an order of its own: an order by
a key leaves open how items with equal keys follow each other, and whoever sorts may decide
it anew each time. The pages partition the collection whatever is decided exactly if no page
boundary falls between two items of one key.

Nothing here names a particular program.
-/
import Mathlib.Data.List.Perm.Basic
import Mathlib.Data.List.Nodup
import Mathlib.Order.Lattice

set_option autoImplicit false

namespace WalStream.Lib

variable {α κ : Type*} [LinearOrder κ] {key : α → κ} {items rows rows' : List α} {n size : Nat}

/-! ## Orders and boundaries -/

/-- The rows are the items, in an order by the key. -/
structure OrderedBy (key : α → κ) (items rows : List α) : Prop where
  perm : rows.Perm items
  sorted : rows.Pairwise fun a b => key a ≤ key b

/-- Position `n` falls between two items of one key: fewer than `n` items come before all
items of that key, and more than `n` up to the last of them. -/
def Straddles (key : α → κ) (items : List α) (n : Nat) : Prop :=
  ∃ x ∈ items, (items.countP fun y => key y < key x) < n ∧
    n < items.countP fun y => key y ≤ key x

instance (key : α → κ) (items : List α) (n : Nat) : Decidable (Straddles key items n) :=
  inferInstanceAs (Decidable (∃ x ∈ items, _))

/-- Page `k`, counted from zero. -/
def page (rows : List α) (size k : Nat) : List α := (rows.drop (k * size)).take size

/-- In a sorted list the items up to a key are a first part of it. -/
theorem filter_le_eq_take (h : rows.Pairwise fun a b => key a ≤ key b) (c : κ) :
    (rows.filter fun y => key y ≤ c) = rows.take (rows.countP fun y => key y ≤ c) := by
  induction rows with
  | nil => rfl
  | cons x xs ih =>
      rw [List.pairwise_cons] at h
      by_cases hx : key x ≤ c
      · simp [hx, ih h.2]
      · -- nothing after `x` is up to `c` either
        have hnone : ∀ y ∈ x :: xs, ¬ key y ≤ c := by
          intro y hy
          rcases List.mem_cons.mp hy with rfl | hy
          · exact hx
          · exact fun hle => hx (le_trans (h.1 y hy) hle)
        rw [List.filter_eq_nil_iff.mpr (by simpa using hnone),
          List.countP_eq_zero.mpr (by simpa using hnone), List.take_zero]

/-- The last of the first `n` items of a sorted list has fewer than `n` items before its
key. -/
theorem countP_lt_getElem (h : rows.Pairwise fun a b => key a ≤ key b) {i : Nat}
    (hi : i < rows.length) :
    (rows.countP fun y => key y < key rows[i]) ≤ i ∧
      i < rows.countP fun y => key y ≤ key rows[i] := by
  induction rows generalizing i with
  | nil => exact absurd hi (Nat.not_lt_zero i)
  | cons x xs ih =>
      rw [List.pairwise_cons] at h
      cases i with
      | zero =>
          constructor
          · refine Nat.le_of_eq (List.countP_eq_zero.mpr fun y hy => ?_)
            rcases List.mem_cons.mp hy with rfl | hy
            · simp
            · simpa using h.1 y hy
          · simp
      | succ i =>
          have hi' : i < xs.length := Nat.lt_of_succ_lt_succ hi
          have hx : key x ≤ key xs[i] := h.1 _ (List.getElem_mem hi')
          obtain ⟨hlt, hle⟩ := ih h.2 hi'
          simp only [List.getElem_cons_succ, List.countP_cons, hx, decide_true, if_true]
          constructor
          · split
            · omega
            · omega
          · omega

/-- **Two orders agree on what comes before a boundary** that no key straddles. -/
theorem take_perm_take (h : OrderedBy key items rows) (h' : OrderedBy key items rows')
    (hn : ¬ Straddles key items n) : (rows.take n).Perm (rows'.take n) := by
  have hperm : rows.Perm rows' := h.perm.trans h'.perm.symm
  cases n with
  | zero => simp
  | succ i =>
      by_cases hi : i < rows.length
      · -- the key of the last item before the boundary
        have hcount : ∀ p : α → Bool, items.countP p = rows.countP p :=
          fun p => (h.perm.countP_eq p).symm
        obtain ⟨hlt, hle⟩ := countP_lt_getElem h.sorted hi
        have hup : rows.countP (fun y => decide (key y ≤ key rows[i])) = i + 1 := by
          by_contra hne
          refine hn ⟨rows[i], h.perm.subset (List.getElem_mem hi), ?_, ?_⟩
          · rw [hcount]
            omega
          · rw [hcount]
            omega
        have hup' : rows'.countP (fun y => decide (key y ≤ key rows[i])) = i + 1 := by
          rw [← hperm.countP_eq, hup]
        have htake := filter_le_eq_take h.sorted (key rows[i])
        have htake' := filter_le_eq_take h'.sorted (key rows[i])
        rw [hup] at htake
        rw [hup'] at htake'
        rw [← htake, ← htake']
        exact hperm.filter _
      · have hlen : rows.length ≤ i + 1 := by omega
        rw [List.take_of_length_le hlen, List.take_of_length_le (hperm.length_eq ▸ hlen)]
        exact hperm

/-! ## The pages -/

/-- **The pages partition the items**, each page from an order of its own, when no boundary
is straddled. -/
theorem pages_perm {order : Nat → List α} (h : ∀ k, OrderedBy key items (order k))
    (hbound : ∀ k, ¬ Straddles key items (k * size)) (m : Nat) :
    ((List.range m).flatMap fun k => page (order k) size k).Perm ((order 0).take (m * size)) := by
  induction m with
  | zero => simp
  | succ m ih =>
      rw [List.range_succ, List.flatMap_append, List.flatMap_singleton]
      have hbefore := take_perm_take (h 0) (h m) (hbound m)
      have hafter := take_perm_take (h m) (h 0) (hbound (m + 1))
      have hcut : (order m).take (m * size) ++ page (order m) size m
          = (order m).take ((m + 1) * size) := by
        rw [page, Nat.succ_mul, List.take_add]
      exact ((ih.trans hbefore).append_right _).trans (hcut ▸ hafter)

/-- A page past the last item is empty. -/
theorem page_eq_nil {k : Nat} (h : rows.length ≤ k * size) : page rows size k = [] := by
  rw [page, List.drop_eq_nil_of_le h, List.take_nil]

theorem mem_page {x : α} {i k : Nat} (h : rows[i]? = some x) (hle : k * size ≤ i)
    (hlt : i < (k + 1) * size) : x ∈ page rows size k := by
  rw [Nat.succ_mul] at hlt
  refine List.mem_of_getElem? (i := i - k * size) ?_
  rw [page, List.getElem?_take_of_lt (by omega), List.getElem?_drop]
  rwa [Nat.add_sub_cancel' hle]

/-- Pages without a repetition share no item. -/
theorem disjoint_of_nodup_flatMap {f : Nat → List α} {m i j : Nat}
    (h : ((List.range m).flatMap f).Nodup) (hij : i < j) (hj : j < m) :
    List.Disjoint (f i) (f j) := by
  have hpair := List.pairwise_iff_getElem.mp (List.nodup_flatMap.mp h).2 i j
    (by rw [List.length_range]; omega) (by rwa [List.length_range]) hij
  simpa only [Function.onFun, List.getElem_range] using hpair

/-- Swapping two neighbours of one key keeps the order. -/
theorem OrderedBy.swap {xs ys : List α} {x y : α} (h : OrderedBy key items (xs ++ x :: y :: ys))
    (hkey : key x = key y) : OrderedBy key items (xs ++ y :: x :: ys) := by
  constructor
  · exact ((List.Perm.swap x y ys).append_left xs).symm.symm.trans h.perm
  · have hs := h.sorted
    simp only [List.pairwise_append, List.pairwise_cons, List.mem_cons, forall_eq_or_imp] at hs ⊢
    obtain ⟨hxs, ⟨⟨-, hx⟩, hy, hys⟩, hcross⟩ := hs
    refine ⟨hxs, ⟨⟨hkey.ge, hy⟩, hx, hys⟩, fun a ha => ?_⟩
    obtain ⟨hax, hay, hrest⟩ := hcross a ha
    exact ⟨hay, hax, hrest⟩

/-! ## A straddled boundary -/

/-- The items have an order by the key. -/
theorem OrderedBy.exists (key : α → κ) (items : List α) : ∃ rows, OrderedBy key items rows := by
  refine ⟨items.mergeSort fun a b => key a ≤ key b, List.mergeSort_perm _ _, ?_⟩
  have hsorted : (items.mergeSort fun a b => key a ≤ key b).Pairwise
      fun a b => decide (key a ≤ key b) = true := by
    refine List.pairwise_mergeSort ?_ ?_ items
    · intro a b c hab hbc
      simp only [decide_eq_true_eq] at hab hbc ⊢
      exact le_trans hab hbc
    · intro a b
      simpa using le_total (key a) (key b)
  exact hsorted.imp fun hab => by simpa using hab

/-- Where the items of one key stand in a sorted list. -/
theorem key_getElem_eq (h : rows.Pairwise fun a b => key a ≤ key b) {c : κ} {i : Nat}
    (hi : i < rows.length) (hlt : (rows.countP fun y => key y < c) ≤ i)
    (hle : i < rows.countP fun y => key y ≤ c) : key rows[i] = c := by
  apply le_antisymm
  · have hmem : rows[i] ∈ rows.filter fun y => key y ≤ c := by
      rw [filter_le_eq_take h]
      exact List.mem_take_iff_getElem.mpr ⟨i, by omega, rfl⟩
    simpa using (List.mem_filter.mp hmem).2
  · by_contra hc
    -- everything up to the key at `i` would come before `c`
    have hmono : (rows.countP fun y => key y ≤ key rows[i]) ≤ rows.countP fun y => key y < c := by
      refine List.countP_mono_left fun y _ hy => ?_
      simp only [decide_eq_true_eq] at hy ⊢
      exact lt_of_le_of_lt hy (not_le.mp hc)
    have := (countP_lt_getElem h hi).2
    omega

/-- **At a straddled boundary two orders show one item twice**: in the one it is the last of
a page, in the other the first of the next. -/
theorem Straddles.exists_mem_pages {k : Nat} (hn : Straddles key items ((k + 1) * size)) :
    ∃ rows rows' x, OrderedBy key items rows ∧ OrderedBy key items rows' ∧
      x ∈ page rows size k ∧ x ∈ page rows' size (k + 1) := by
  obtain ⟨z, -, hlt, hle⟩ := hn
  obtain ⟨rows, h⟩ := OrderedBy.exists key items
  have hcount : ∀ p : α → Bool, items.countP p = rows.countP p :=
    fun p => (h.perm.countP_eq p).symm
  rw [hcount] at hlt hle
  -- the last position before the boundary, and the boundary
  obtain ⟨i, hi⟩ : ∃ i, (k + 1) * size = i + 1 := ⟨(k + 1) * size - 1, by omega⟩
  have hsize : 0 < size := by
    rcases Nat.eq_zero_or_pos size with rfl | hpos
    · simp at hi
    · exact hpos
  have hlen : i + 1 < rows.length := by
    have := List.countP_le_length (p := fun y => decide (key y ≤ key z)) (l := rows)
    omega
  have hx : key rows[i] = key z := key_getElem_eq h.sorted (by omega) (by omega) (by omega)
  have hy : key rows[i + 1] = key z := key_getElem_eq h.sorted hlen (by omega) (by omega)
  have hsplit : rows = rows.take i ++ rows[i] :: rows[i + 1] :: rows.drop (i + 2) := by
    rw [← List.drop_eq_getElem_cons hlen, ← List.drop_eq_getElem_cons (by omega),
      List.take_append_drop]
  have hswap : OrderedBy key items (rows.take i ++ rows[i + 1] :: rows[i] :: rows.drop (i + 2)) :=
    (hsplit ▸ h : OrderedBy key items (rows.take i ++ rows[i] :: rows[i + 1] :: _)).swap
      (hx.trans hy.symm)
  have hnext : (k + 1 + 1) * size = (k + 1) * size + size := Nat.succ_mul _ _
  have hprev : (k + 1) * size = k * size + size := Nat.succ_mul _ _
  refine ⟨rows, _, rows[i], h, hswap, ?_, ?_⟩
  · exact mem_page (List.getElem?_eq_getElem _) (by omega) (by omega)
  · refine mem_page (i := i + 1) ?_ (by omega) (by omega)
    have htake : (rows.take i).length = i := List.length_take_of_le (by omega)
    rw [List.getElem?_append_right (by omega), htake]
    simp

end WalStream.Lib

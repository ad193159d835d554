/-
Sums of lists: when one element is the sum of all, and sums taken group by group.

Nothing here names a particular program.
-/
import Mathlib.Algebra.BigOperators.Group.List.Basic
import Mathlib.Algebra.Order.BigOperators.Group.List
import Mathlib.Algebra.Order.Group.Defs
import Mathlib.Data.List.Nodup

set_option autoImplicit false

namespace WalStream.Lib

/-! ## One element and the sum -/

section Ordered

variable {α : Type} [AddCommGroup α] [LinearOrder α] [IsOrderedAddMonoid α] {l : List α}

/-- A sum of elements that are not negative is 0 when all of them are. -/
theorem sum_eq_zero_iff (h : ∀ x ∈ l, 0 ≤ x) : l.sum = 0 ↔ ∀ x ∈ l, x = 0 := by
  constructor
  · intro hsum x hx
    exact List.all_zero_of_le_zero_le_of_sum_eq_zero h hsum hx
  · exact List.sum_eq_zero

/-- The first element is the sum exactly when the others are 0. -/
theorem head_eq_sum_iff (h : ∀ x ∈ l, 0 ≤ x) :
    l.head?.getD 0 = l.sum ↔ ∀ x ∈ l.tail, x = 0 := by
  cases l with
  | nil => simp
  | cons a l =>
      rw [List.forall_mem_cons] at h
      rw [List.tail_cons, ← sum_eq_zero_iff h.2, List.sum_cons]
      simp

/-- The last element is the sum exactly when the others are 0. -/
theorem getLast_eq_sum_iff (h : ∀ x ∈ l, 0 ≤ x) :
    l.getLast?.getD 0 = l.sum ↔ ∀ x ∈ l.dropLast, x = 0 := by
  rcases List.eq_nil_or_concat' l with rfl | ⟨front, a, rfl⟩
  · simp
  · have hfront : ∀ x ∈ front, 0 ≤ x := fun x hx => h x (List.mem_append_left _ hx)
    rw [List.dropLast_concat, ← sum_eq_zero_iff hfront, List.sum_append]
    simp

end Ordered

/-! ## Groups -/

variable {α γ κ : Type} [AddCommMonoid α] [DecidableEq κ]

/-- Among keys without duplicates one element is counted once. -/
theorem sum_map_single {keys : List κ} (hnodup : keys.Nodup) {k : κ}
    (hk : k ∈ keys) (a : α) : (keys.map fun k' => if k = k' then a else 0).sum = a := by
  induction keys with
  | nil => cases hk
  | cons k' keys ih =>
      rw [List.nodup_cons] at hnodup
      rw [List.map_cons, List.sum_cons]
      by_cases heq : k = k'
      · have hrest : (keys.map fun k' => if k = k' then a else 0).sum = 0 := by
          apply List.sum_eq_zero
          intro x hx
          obtain ⟨k'', hk'', rfl⟩ := List.mem_map.mp hx
          exact if_neg (by rintro rfl; exact hnodup.1 (heq ▸ hk''))
        rw [if_pos heq, hrest, add_zero]
      · rw [if_neg heq, zero_add]
        exact ih hnodup.2 ((List.mem_cons.mp hk).resolve_left heq)

/-- The sums of the groups add up to the sum of all. -/
theorem sum_groups {keys : List κ} (hnodup : keys.Nodup) (f : γ → κ) (g : γ → α) (l : List γ)
    (hcover : ∀ x ∈ l, f x ∈ keys) :
    (keys.map fun k => ((l.filter fun x => f x = k).map g).sum).sum = (l.map g).sum := by
  induction l with
  | nil => simp
  | cons x l ih =>
      rw [List.forall_mem_cons] at hcover
      have hsplit : ∀ k, (((x :: l).filter fun x => f x = k).map g).sum =
          (if f x = k then g x else 0) + ((l.filter fun x => f x = k).map g).sum := by
        intro k
        by_cases heq : f x = k
        · simp [heq]
        · simp [heq]
      simp only [hsplit]
      rw [List.sum_map_add, ih hcover.2, sum_map_single hnodup hcover.1, List.map_cons,
        List.sum_cons]

end WalStream.Lib

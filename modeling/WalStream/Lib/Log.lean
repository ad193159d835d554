/-
Append-only logs read in order.

Two kinds of log are read by position. In the first every entry has a key and the keys
strictly increase; a reader remembers the last key it saw and asks for the entries after
it. In the second the position is the index and every entry has a time that never
decreases; a reader remembers the next index. What both readers need is the same: after
the first outstanding entry is taken, what is outstanding is the rest.

Nothing here names a particular log.
-/
import Mathlib.Algebra.BigOperators.Group.Finset.Basic
import Mathlib.Algebra.BigOperators.Group.Finset.Piecewise
import Mathlib.Algebra.GroupWithZero.Nat
import Mathlib.Data.List.Basic
import Mathlib.Data.List.GetD
import Mathlib.Data.List.Induction
import Mathlib.Data.List.Range
import Mathlib.Order.Basic

set_option autoImplicit false

namespace WalStream.Lib

variable {α : Type*}

/-! ## Logs ordered by key -/

/-- In a strictly ordered log, the entries passing `p` that lie beyond the first such
entry are the remaining ones. `q` is the filter of a reader standing at that entry; it
has to agree with `p` beyond it and to reject everything up to it. -/
theorem filter_after_head {r : α → α → Prop} {l : List α} {p q : α → Bool} {e : α} {es : List α}
    (hsorted : l.Pairwise r) (hl : l.filter p = e :: es)
    (hqe : q e = false) (hq : ∀ x, r e x → (q x = p x)) (hlow : ∀ x, r x e → q x = false) :
    l.filter q = es := by
  induction l with
  | nil => simp at hl
  | cons a l ih =>
      rw [List.pairwise_cons] at hsorted
      by_cases hpa : p a = true
      · -- `a` is the first entry passing `p`, so everything after it is beyond it
        rw [List.filter_cons_of_pos hpa, List.cons.injEq] at hl
        obtain ⟨rfl, rfl⟩ := hl
        rw [List.filter_cons_of_neg (by simp [hqe])]
        exact List.filter_congr fun x hx => hq x (hsorted.1 x hx)
      · rw [List.filter_cons_of_neg (by simpa using hpa)] at hl
        have hmem : e ∈ l := by
          have : e ∈ l.filter p := by rw [hl]; exact List.mem_cons_self ..
          exact (List.mem_filter.mp this).1
        rw [List.filter_cons_of_neg (by simp [hlow a (hsorted.1 e hmem)])]
        exact ih hsorted.2 hl

/-- What is outstanding stays a prefix of what is outstanding when the log grows. -/
theorem filter_prefix_append {l₁ l₂ es : List α} {p : α → Bool}
    (h : es <+: l₁.filter p) : es <+: (l₁ ++ l₂).filter p := by
  rw [List.filter_append]
  exact h.trans (List.prefix_append _ _)

/-! ## Logs read by index -/

/-- The indices in `[lo, n)` passing `P` form the interval `[lo, k)` when `P` holds below
`k` and fails from `k` on. -/
theorem filter_range_eq_range' {n lo k : Nat} {P : Nat → Bool} (hlk : lo ≤ k) (hkn : k ≤ n)
    (hin : ∀ o, lo ≤ o → o < k → P o = true) (hout : ∀ o, k ≤ o → o < n → P o = false) :
    (List.range n).filter (fun o => decide (lo ≤ o) && P o) = List.range' lo (k - lo) := by
  have hsplit : List.range n
      = List.range' 0 lo ++ (List.range' lo (k - lo) ++ List.range' k (n - k)) := by
    have h₁ := List.range'_append_1 (s := lo) (m := k - lo) (n := n - k)
    have h₂ := List.range'_append_1 (s := 0) (m := lo) (n := n - lo)
    rw [show lo + (k - lo) = k by omega, show k - lo + (n - k) = n - lo by omega] at h₁
    rw [show 0 + lo = lo by omega, show lo + (n - lo) = n by omega] at h₂
    rw [List.range_eq_range', h₁, h₂]
  have hlow : (List.range' 0 lo).filter (fun o => decide (lo ≤ o) && P o) = [] := by
    rw [List.filter_eq_nil_iff]
    intro o ho
    rw [List.mem_range'_1] at ho
    simp only [Bool.and_eq_true, decide_eq_true_eq, not_and]
    omega
  have hmid : (List.range' lo (k - lo)).filter (fun o => decide (lo ≤ o) && P o)
      = List.range' lo (k - lo) := by
    rw [List.filter_eq_self]
    intro o ho
    rw [List.mem_range'_1] at ho
    simp [ho.1, hin o ho.1 (by omega)]
  have hhigh : (List.range' k (n - k)).filter (fun o => decide (lo ≤ o) && P o) = [] := by
    rw [List.filter_eq_nil_iff]
    intro o ho
    rw [List.mem_range'_1] at ho
    simp [hout o ho.1 (by omega)]
  rw [hsplit, List.filter_append, List.filter_append, hlow, hmid, hhigh]
  simp

/-- Reading a log at the indices that pass is filtering it. -/
theorem map_filterMap_range_filter {β γ : Type*} {l : List α} {P : Nat → Bool} {Q : α → Bool}
    {f : Nat → α → β} {g : β → γ} {k : α → γ} (hP : ∀ o a, l[o]? = some a → P o = Q a)
    (hg : ∀ o a, g (f o a) = k a) :
    (((List.range l.length).filter P).filterMap fun o => l[o]?.map (f o)).map g
      = (l.filter Q).map k := by
  -- on the log, the last entry appended: the indices before it read what they read
  induction l using List.reverseRecOn with
  | nil => rfl
  | append_singleton l a ih =>
      have hlast : (l ++ [a])[l.length]? = some a := List.getElem?_concat_length
      have hbefore : ((List.range l.length).filter P).filterMap (fun o => (l ++ [a])[o]?.map (f o))
          = ((List.range l.length).filter P).filterMap fun o => l[o]?.map (f o) := by
        refine List.filterMap_congr fun o ho => ?_
        rw [List.getElem?_append_left (List.mem_range.mp (List.mem_filter.mp ho).1)]
      have hind := ih fun o x hx => hP o x
        ((List.getElem?_append_left (List.getElem?_eq_some_iff.mp hx).1).trans hx)
      rw [List.length_append, List.length_singleton, List.range_succ, List.filter_append,
        List.filterMap_append, List.map_append, hbefore, hind, List.filter_append, List.map_append]
      congr 1
      have hPa := hP _ _ hlast
      cases hQ : Q a with
      | true => simp [hPa, hQ, hg]
      | false => simp [hPa, hQ]

/-! ## Positions after an append -/

/-- A position of a list with one more element is one of the list, or the last. -/
theorem getElem?_snoc_iff {α : Type*} {as : List α} {a x : α} {n : Nat} :
    (as ++ [a])[n]? = some x ↔ as[n]? = some x ∨ (n = as.length ∧ a = x) := by
  rw [List.getElem?_append]
  split
  · rename_i hlt
    exact ⟨Or.inl, fun h => h.resolve_right fun h' => by omega⟩
  · rename_i hge
    rw [List.getElem?_eq_none (by omega : as.length ≤ n)]
    by_cases hn : n = as.length
    · subst hn
      simp
    · rw [List.getElem?_eq_none (by simp only [List.length_singleton]; omega)]
      simp [hn]

/-- What holds of the element at a position after an append held of it before, or holds of
the new element at the old end. -/
theorem exists_getElem?_snoc_iff {α : Type*} {as : List α} {a : α} {n : Nat} {P : α → Prop} :
    (∃ x, (as ++ [a])[n]? = some x ∧ P x) ↔
      (∃ x, as[n]? = some x ∧ P x) ∨ (n = as.length ∧ P a) := by
  simp only [getElem?_snoc_iff]
  constructor
  · rintro ⟨x, hx | ⟨hn, rfl⟩, hP⟩
    · exact Or.inl ⟨x, hx, hP⟩
    · exact Or.inr ⟨hn, hP⟩
  · rintro (⟨x, hx, hP⟩ | ⟨hn, hP⟩)
    · exact ⟨x, Or.inl hx, hP⟩
    · exact ⟨a, Or.inr ⟨hn, rfl⟩, hP⟩

/-! ## Logs read backwards -/

/-- In a log that keeps the newest entry first, every entry stands in the relation `P` to
what was there before it. -/
def Preceded (P : α → List α → Prop) (log : List α) : Prop :=
  ∀ x older, (x :: older) <:+ log → P x older

theorem preceded_nil (P : α → List α → Prop) : Preceded P [] := by
  intro x older h
  cases List.suffix_nil.mp h

theorem preceded_cons {P : α → List α → Prop} {x : α} {log : List α} :
    Preceded P (x :: log) ↔ P x log ∧ Preceded P log := by
  constructor
  · intro h
    exact ⟨h x log (List.suffix_refl _), fun y older hy => h y older (hy.trans (List.suffix_cons ..))⟩
  · rintro ⟨hx, hlog⟩ y older hy
    rcases List.suffix_cons_iff.mp hy with heq | hsuffix
    · cases heq
      exact hx
    · exact hlog y older hsuffix

/-- An entry of the log has something before it. -/
theorem Preceded.of_mem {P : α → List α → Prop} {log : List α} (h : Preceded P log) {x : α}
    (hx : x ∈ log) : ∃ older, (x :: older) <:+ log ∧ P x older := by
  obtain ⟨newer, older, rfl⟩ := List.append_of_mem hx
  exact ⟨older, List.suffix_append _ _, h x older (List.suffix_append _ _)⟩

/-! ## Logs merged from several -/

/-- In a list whose elements each belong to one of `n` classes, counting goes by class. -/
theorem countP_eq_sum_filter {l : List α} {n : Nat} {c : Nat → α → Bool}
    (h : ∀ a ∈ l, ∃ p < n, ∀ q, c q a = decide (q = p)) (P : α → Bool) :
    l.countP P = ∑ p ∈ Finset.range n, (l.filter (c p)).countP P := by
  induction l with
  | nil => simp
  | cons a l ih =>
      obtain ⟨p, hp, hc⟩ := h a (List.mem_cons_self ..)
      have hcons : ∀ q, ((a :: l).filter (c q)).countP P
          = (l.filter (c q)).countP P + if q = p then (if P a then 1 else 0) else 0 := by
        intro q
        by_cases hq : q = p
        · rw [List.filter_cons_of_pos (by rw [hc, decide_eq_true hq]), List.countP_cons, if_pos hq]
        · rw [List.filter_cons_of_neg (by simp [hc, hq]), if_neg hq, Nat.add_zero]
      rw [List.countP_cons, ih fun x hx => h x (List.mem_cons_of_mem _ hx),
        Finset.sum_congr rfl fun q _ => hcons q, Finset.sum_add_distrib, Finset.sum_ite_eq',
        if_pos (Finset.mem_range.mpr hp)]

/-- A sum over a list, by position. -/
theorem sum_map_eq_sum_range {l : List α} {f : α → Nat} {d : α} :
    (l.map f).sum = ∑ p ∈ Finset.range l.length, f (l.getD p d) := by
  induction l with
  | nil => rfl
  | cons a l ih =>
      rw [List.map_cons, List.sum_cons, ih, List.length_cons, Finset.sum_range_succ', Nat.add_comm]
      rfl
end WalStream.Lib

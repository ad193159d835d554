/-
Lists whose elements are read one by one.

`as.mapM f` in `Option` fails as soon as `f` fails on an element; when it does not, its
result has one element for each element of `as`. `as.filterMap f` leaves out the elements
that `f` fails on. A class of characters reads the longest first part that is in the class.
A list without two elements of one key has at most one element of a key.

Nothing here names a particular program.
-/
import Mathlib.Data.List.Nodup

set_option autoImplicit false

namespace WalStream.Lib

variable {α β : Type} {f g : α → Option β} {as : List α} {bs : List β}

/-! ## All elements, or none -/

/-- Every element of the result comes from an element of the list. -/
theorem mem_of_mapM_some {b : β} (h : as.mapM f = some bs) (hb : b ∈ bs) :
    ∃ a ∈ as, f a = some b := by
  induction as generalizing bs with
  -- no result without all results
  | nil =>
      simp only [List.mapM_nil, Option.pure_def, Option.some.injEq] at h
      subst h
      cases hb
  | cons a as ih =>
      simp only [List.mapM_cons, Option.bind_eq_bind, Option.bind_eq_some_iff, Option.pure_def,
        Option.some.injEq] at h
      obtain ⟨b', hb', bs', hbs', rfl⟩ := h
      rcases List.mem_cons.mp hb with rfl | hb
      · exact ⟨a, List.mem_cons_self .., hb'⟩
      · obtain ⟨a', ha', hf⟩ := ih hbs' hb
        exact ⟨a', List.mem_cons_of_mem _ ha', hf⟩

/-- Every element of the list has its element in the result. -/
theorem exists_mem_of_mapM_some {a : α} (h : as.mapM f = some bs) (ha : a ∈ as) :
    ∃ b ∈ bs, f a = some b := by
  induction as generalizing bs with
  | nil => cases ha
  | cons a' as ih =>
      simp only [List.mapM_cons, Option.bind_eq_bind, Option.bind_eq_some_iff, Option.pure_def,
        Option.some.injEq] at h
      obtain ⟨b, hb, bs', hbs', rfl⟩ := h
      rcases List.mem_cons.mp ha with rfl | ha
      · exact ⟨b, List.mem_cons_self .., hb⟩
      · obtain ⟨b', hb', hf⟩ := ih hbs' ha
        exact ⟨b', List.mem_cons_of_mem _ hb', hf⟩

/-- All results satisfy `p` exactly when all elements satisfy `q`, if that is so of one. -/
theorem forall_mapM_iff {p : β → Prop} {q : α → Prop} (h : as.mapM f = some bs)
    (hpq : ∀ a b, f a = some b → (p b ↔ q a)) : (∀ b ∈ bs, p b) ↔ ∀ a ∈ as, q a := by
  constructor
  · intro hp a ha
    obtain ⟨b, hb, hf⟩ := exists_mem_of_mapM_some h ha
    exact (hpq a b hf).mp (hp b hb)
  · intro hq b hb
    obtain ⟨a, ha, hf⟩ := mem_of_mapM_some h hb
    exact (hpq a b hf).mpr (hq a ha)

/-! ## The elements that are read -/

theorem length_filterMap_le (h : ∀ a ∈ as, g a = none → f a = none) :
    (as.filterMap f).length ≤ (as.filterMap g).length := by
  induction as with
  | nil => exact Nat.le_refl 0
  | cons a as ih =>
      rw [List.forall_mem_cons] at h
      have hle := ih h.2
      cases hg : g a with
      | none => rwa [List.filterMap_cons_none (h.1 hg), List.filterMap_cons_none hg]
      | some b =>
          cases hf : f a with
          | none =>
              rw [List.filterMap_cons_none hf, List.filterMap_cons_some hg, List.length_cons]
              omega
          | some b' =>
              rw [List.filterMap_cons_some hf, List.filterMap_cons_some hg, List.length_cons,
                List.length_cons]
              omega

/-- Two readers of which the first reads nothing that the second does not have the same
results exactly when they read every element alike. -/
theorem filterMap_eq_filterMap_iff (h : ∀ a ∈ as, g a = none → f a = none) :
    as.filterMap f = as.filterMap g ↔ ∀ a ∈ as, f a = g a := by
  constructor
  · intro heq
    induction as with
    | nil => intro a ha; cases ha
    | cons a as ih =>
        rw [List.forall_mem_cons] at h ⊢
        cases hg : g a with
        | none =>
            rw [List.filterMap_cons_none (h.1 hg), List.filterMap_cons_none hg] at heq
            exact ⟨h.1 hg, ih h.2 heq⟩
        | some b =>
            cases hf : f a with
            | none =>
                -- the first list would be shorter than the second
                rw [List.filterMap_cons_none hf, List.filterMap_cons_some hg] at heq
                have hlen := congrArg List.length heq
                have hle := length_filterMap_le h.2
                rw [List.length_cons] at hlen
                omega
            | some b' =>
                rw [List.filterMap_cons_some hf, List.filterMap_cons_some hg,
                  List.cons.injEq] at heq
                exact ⟨by rw [heq.1], ih h.2 heq.2⟩
  · exact List.filterMap_congr

/-! ## A class of characters -/

/-- `cs` does not begin with a character of the class. -/
def Stops (p : α → Bool) (cs : List α) : Prop := ∀ c ∈ cs.head?, p c = false

theorem takeWhile_of_stops {p : α → Bool} {cs : List α} (h : Stops p cs) :
    cs.takeWhile p = [] := by
  cases cs with
  | nil => rfl
  | cons c cs => exact List.takeWhile_cons_of_neg (by simp [h c rfl])

theorem dropWhile_of_stops {p : α → Bool} {cs : List α} (h : Stops p cs) :
    cs.dropWhile p = cs := by
  cases cs with
  | nil => rfl
  | cons c cs => exact List.dropWhile_cons_of_neg (by simp [h c rfl])

/-- The first part in the class, when the class stops behind it. -/
theorem takeWhile_front {p : α → Bool} {front cs : List α} (h : ∀ c ∈ front, p c = true)
    (hcs : Stops p cs) : (front ++ cs).takeWhile p = front := by
  rw [List.takeWhile_append_of_pos h, takeWhile_of_stops hcs, List.append_nil]

/-- What follows that part. -/
theorem dropWhile_front {p : α → Bool} {front cs : List α} (h : ∀ c ∈ front, p c = true)
    (hcs : Stops p cs) : (front ++ cs).dropWhile p = cs := by
  rw [List.dropWhile_append_of_pos h, dropWhile_of_stops hcs]

/-- The part before the first `d`. -/
theorem takeWhile_until [DecidableEq α] {d : α} {front : List α} (cs : List α)
    (h : d ∉ front) : ((front ++ d :: cs).takeWhile fun c => c ≠ d) = front := by
  apply takeWhile_front
  · intro c hc
    exact decide_eq_true fun heq => h (heq ▸ hc)
  · simp [Stops]

/-- The first `d` and what follows it. -/
theorem dropWhile_until [DecidableEq α] {d : α} {front : List α} (cs : List α)
    (h : d ∉ front) : ((front ++ d :: cs).dropWhile fun c => c ≠ d) = d :: cs := by
  apply dropWhile_front
  · intro c hc
    exact decide_eq_true fun heq => h (heq ▸ hc)
  · simp [Stops]

/-- What is not in the class is not dropped. -/
theorem mem_dropWhile {p : α → Bool} {c : α} {cs : List α} (hc : p c = false) (h : c ∈ cs) :
    c ∈ cs.dropWhile p := by
  rw [← List.takeWhile_append_dropWhile (p := p) (l := cs)] at h
  rcases List.mem_append.mp h with h | h
  · have hp : p c = true := List.all_eq_true.mp List.all_takeWhile c h
    rw [hc] at hp
    cases hp
  · exact h

/-! ## Counting -/

/-- Between two counts of a list stand those that are only in the one or only in the other. -/
theorem countP_exchange (p q : α → Bool) (as : List α) :
    as.countP q + as.countP (fun a => p a && !q a) = as.countP p + as.countP fun a => q a && !p a := by
  induction as with
  | nil => rfl
  | cons a as ih =>
      simp only [List.countP_cons]
      cases p a <;> cases q a <;> simp <;> omega

/-! ## Keys without duplicates -/

theorem nodup_map_append_singleton {k : α → β} {a : α} (has : (as.map k).Nodup)
    (ha : ∀ x ∈ as, k x ≠ k a) : ((as ++ [a]).map k).Nodup := by
  rw [List.map_append, List.map_singleton, List.nodup_append]
  refine ⟨has, List.nodup_singleton _, ?_⟩
  rintro x hx y hy rfl
  obtain ⟨z, hz, hkz⟩ := List.mem_map.mp hx
  exact ha z hz (hkz.trans (List.mem_singleton.mp hy))

/-- The elements of a key are one or none. -/
theorem filter_key_of_mem [DecidableEq β] {k : α → β} {a : α} (has : (as.map k).Nodup)
    (ha : a ∈ as) : as.filter (fun x => k x = k a) = [a] := by
  induction as with
  | nil => cases ha
  | cons x xs ih =>
      rw [List.map_cons, List.nodup_cons] at has
      rcases List.mem_cons.mp ha with rfl | ha
      · rw [List.filter_cons_of_pos (by simp)]
        refine congrArg _ (List.filter_eq_nil_iff.mpr fun y hy heq => has.1 ?_)
        exact List.mem_map.mpr ⟨y, hy, of_decide_eq_true heq⟩
      · have hne : k x ≠ k a := fun heq => has.1 (heq ▸ List.mem_map_of_mem ha)
        rw [List.filter_cons_of_neg (by simpa using hne)]
        exact ih has.2 ha

end WalStream.Lib

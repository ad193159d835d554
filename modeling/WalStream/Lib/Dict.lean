/-
Insertion-ordered dictionaries.

A `Dict` is the list of its entries in the order the keys were first set, and carries the
proof that no key occurs twice, so a dictionary with two values for one key cannot be
built. Setting a key that is present replaces its value in place; setting a new key
appends it. These are the rules of Python's `dict` and of every map read through it.

Nothing here names a particular program.
-/
import Mathlib.Data.List.Nodup
import Mathlib.Data.List.Basic

set_option autoImplicit false

namespace WalStream.Lib

/-- An insertion-ordered dictionary. -/
structure Dict (κ β : Type) where
  /-- The entries, in the order their keys were first set. -/
  entries : List (κ × β)
  /-- No key has two entries. -/
  nodup : (entries.map Prod.fst).Nodup
deriving DecidableEq

namespace Dict

variable {κ β : Type}

/-- The dictionary with no entry. -/
def empty : Dict κ β := ⟨[], List.nodup_nil⟩

instance : Inhabited (Dict κ β) := ⟨empty⟩

/-- The keys, in order. -/
def keys (d : Dict κ β) : List κ := d.entries.map Prod.fst

/-- The values, in the order of their keys. -/
def values (d : Dict κ β) : List β := d.entries.map Prod.snd

/-- Whether there is no entry: the negation of Python's truth value of a `dict`. -/
def isEmpty (d : Dict κ β) : Bool := d.entries.isEmpty

@[ext] theorem ext {d d' : Dict κ β} (h : d.entries = d'.entries) : d = d' := by
  cases d; cases d'; cases h; rfl

@[simp] theorem entries_empty : (empty : Dict κ β).entries = [] := rfl

variable [DecidableEq κ]

/-- The value set for `k`, if there is one. -/
def get? (d : Dict κ β) (k : κ) : Option β :=
  (d.entries.find? fun e => decide (e.1 = k)).map Prod.snd

/-- Replace the value of `k` in a list of entries. -/
def replaceValue (k : κ) (v : β) (es : List (κ × β)) : List (κ × β) :=
  es.map fun e => if e.1 = k then (k, v) else e

omit [DecidableEq κ] in
private theorem map_fst_replaceValue [DecidableEq κ] (k : κ) (v : β) (es : List (κ × β)) :
    (replaceValue k v es).map Prod.fst = es.map Prod.fst := by
  induction es with
  | nil => rfl
  | cons e es ih =>
      simp only [replaceValue, List.map_cons] at ih ⊢
      rw [ih]
      by_cases h : e.1 = k
      · simp [h]
      · simp [h]

/-- `d[k] = v`: in place if `k` is a key, at the end otherwise. -/
def set (d : Dict κ β) (k : κ) (v : β) : Dict κ β :=
  if h : k ∈ d.entries.map Prod.fst then
    ⟨replaceValue k v d.entries, by rw [map_fst_replaceValue]; exact d.nodup⟩
  else
    ⟨d.entries ++ [(k, v)], by
      rw [List.map_append, List.nodup_append]
      refine ⟨d.nodup, by simp, ?_⟩
      intro a ha b hb
      simp only [List.map_cons, List.map_nil, List.mem_singleton] at hb
      subst hb
      exact fun hab => h (hab ▸ ha)⟩

/-- `dict(pairs)`: the pairs set one after the other. -/
def ofPairs (ps : List (κ × β)) : Dict κ β :=
  ps.foldl (fun d p => d.set p.1 p.2) empty

/-! ## Reading -/

@[simp] theorem get?_empty (k : κ) : (empty : Dict κ β).get? k = none := rfl

/-- A value is read exactly when its entry is there. -/
theorem get?_eq_some_iff (d : Dict κ β) (k : κ) (v : β) :
    d.get? k = some v ↔ (k, v) ∈ d.entries := by
  obtain ⟨es, hnd⟩ := d
  simp only [get?]
  induction es with
  | nil => simp
  | cons e es ih =>
      simp only [List.map_cons, List.nodup_cons] at hnd
      by_cases h : e.1 = k
      · -- the first entry is the one read, and no later one has its key
        have hnot : (k, v) ∉ es := fun hm => hnd.1 (h ▸ List.mem_map_of_mem hm)
        simp only [List.find?_cons, h, decide_true, Option.map_some, Option.some.injEq,
          List.mem_cons, hnot, or_false]
        constructor
        · rintro rfl; rw [← h]
        · intro he; rw [← he]
      · have hne : (k, v) ≠ e := by rintro rfl; exact h rfl
        simp only [List.find?_cons, h, decide_false, List.mem_cons, hne, false_or]
        exact ih hnd.2

/-! ## Setting -/

theorem mem_entries_set (d : Dict κ β) (k : κ) (v : β) (e : κ × β) :
    e ∈ (d.set k v).entries ↔ e = (k, v) ∨ (e ∈ d.entries ∧ e.1 ≠ k) := by
  unfold set
  split
  · rename_i h
    obtain ⟨e₀, he₀, hk₀⟩ := List.mem_map.mp h
    simp only [replaceValue, List.mem_map]
    constructor
    · rintro ⟨e', he', rfl⟩
      by_cases hk : e'.1 = k
      · simp [hk]
      · simp [hk, he']
    · rintro (rfl | ⟨he, hk⟩)
      · exact ⟨e₀, he₀, by simp [hk₀]⟩
      · exact ⟨e, he, by simp [hk]⟩
  · rename_i h
    simp only [List.mem_append, List.mem_singleton]
    constructor
    · rintro (he | rfl)
      · exact Or.inr ⟨he, fun hk => h (hk ▸ List.mem_map_of_mem he)⟩
      · exact Or.inl rfl
    · rintro (rfl | ⟨he, _⟩)
      · exact Or.inr rfl
      · exact Or.inl he

@[simp] theorem get?_set_self (d : Dict κ β) (k : κ) (v : β) : (d.set k v).get? k = some v := by
  rw [get?_eq_some_iff, mem_entries_set]
  exact Or.inl rfl

theorem get?_set_of_ne (d : Dict κ β) {k k' : κ} (v : β) (h : k' ≠ k) :
    (d.set k v).get? k' = d.get? k' := by
  apply Option.ext
  intro w
  rw [get?_eq_some_iff, get?_eq_some_iff, mem_entries_set]
  simp [h]

theorem get?_set (d : Dict κ β) (k k' : κ) (v : β) :
    (d.set k v).get? k' = if k' = k then some v else d.get? k' := by
  by_cases h : k' = k
  · subst h; simp
  · rw [if_neg h, get?_set_of_ne d v h]

/-- A dict with something to read is not empty. -/
theorem isEmpty_eq_false_of_get? {d : Dict κ β} {k : κ} {v : β} (h : d.get? k = some v) :
    d.isEmpty = false := by
  rw [isEmpty, List.isEmpty_eq_false_iff]
  exact List.ne_nil_of_mem ((get?_eq_some_iff d k v).mp h)

/-- Setting a key that is not there appends its entry. -/
theorem entries_set_of_notMem (d : Dict κ β) {k : κ} (v : β)
    (h : k ∉ d.entries.map Prod.fst) : (d.set k v).entries = d.entries ++ [(k, v)] := by
  unfold set
  rw [dif_neg h]

/-! ## The map of a dictionary -/

/-- The two dictionaries are the same map, whatever the order of their entries. -/
def SameMap (d d' : Dict κ β) : Prop := ∀ k, d.get? k = d'.get? k

/-- The same map is the same entries, reordered. -/
theorem sameMap_iff_perm {d d' : Dict κ β} : SameMap d d' ↔ d.entries.Perm d'.entries := by
  have hmem : SameMap d d' ↔ ∀ e, e ∈ d.entries ↔ e ∈ d'.entries := by
    constructor
    · rintro h ⟨k, v⟩
      rw [← get?_eq_some_iff, ← get?_eq_some_iff, h k]
    · intro h k
      apply Option.ext
      intro v
      rw [get?_eq_some_iff, get?_eq_some_iff, h]
  rw [hmem, List.perm_ext_iff_of_nodup (List.Nodup.of_map _ d.nodup)
    (List.Nodup.of_map _ d'.nodup)]

/-! ## Filtering -/

omit [DecidableEq κ] in
/-- The entries that satisfy `p`. -/
def filter (p : κ × β → Bool) (d : Dict κ β) : Dict κ β :=
  ⟨d.entries.filter p, d.nodup.sublist (List.filter_sublist.map _)⟩

theorem get?_filter_eq_some_iff (p : κ × β → Bool) (d : Dict κ β) (k : κ) (v : β) :
    (d.filter p).get? k = some v ↔ d.get? k = some v ∧ p (k, v) = true := by
  rw [get?_eq_some_iff, get?_eq_some_iff, filter, List.mem_filter]

/-! ## Building from pairs -/

private theorem entries_foldl_set (ps : List (κ × β)) (d : Dict κ β)
    (h : (d.entries.map Prod.fst ++ ps.map Prod.fst).Nodup) :
    (ps.foldl (fun d p => d.set p.1 p.2) d).entries = d.entries ++ ps := by
  induction ps generalizing d with
  | nil => simp
  | cons p ps ih =>
      have hp : p.1 ∉ d.entries.map Prod.fst := by
        intro hm
        exact (List.nodup_append.mp h).2.2 _ hm _ (by simp) rfl
      have he := entries_set_of_notMem d p.2 hp
      rw [List.foldl_cons, ih (d.set p.1 p.2) (by rw [he]; simpa using h), he]
      simp

/-- Pairs with distinct keys are kept as they are. -/
theorem entries_ofPairs_of_nodup {ps : List (κ × β)} (h : (ps.map Prod.fst).Nodup) :
    (ofPairs ps).entries = ps := by
  rw [ofPairs, entries_foldl_set ps empty (by simpa using h)]
  simp

/-! ## Building from computed values -/

/-- Set the value, if there is one. -/
def setSome (d : Dict κ β) (k : κ) : Option β → Dict κ β
  | some v => d.set k v
  | none => d

/-- A loop that sets what it computes for every element. -/
theorem get?_foldl_setSome {γ : Type} {k : γ → κ} {f : γ → Option β}
    (hinj : Function.Injective k) {c : γ} {v : β} (hv : f c = some v) {cs : List γ}
    {d : Dict κ β} (h : c ∈ cs ∨ d.get? (k c) = some v) :
    (cs.foldl (fun d c => d.setSome (k c) (f c)) d).get? (k c) = some v := by
  induction cs generalizing d with
  | nil => exact h.resolve_left List.not_mem_nil
  | cons c' cs ih =>
      apply ih
      change c ∈ cs ∨ (d.setSome (k c') (f c')).get? (k c) = some v
      by_cases heq : c = c'
      · right
        rw [← heq, hv]
        exact get?_set_self d (k c) v
      · refine h.imp (fun hmem => (List.mem_cons.mp hmem).resolve_left heq) ?_
        intro hd
        cases f c' with
        | none => exact hd
        | some v' => exact (get?_set_of_ne d v' fun hkey => heq (hinj hkey)).trans hd

example : (ofPairs [(1, "a"), (2, "b"), (1, "c")]).entries = [(1, "c"), (2, "b")] := by decide

end Dict

end WalStream.Lib

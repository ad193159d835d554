/-
Lists joined by a separator, when the separator may occur inside the parts.

`[s].intercalate parts` forgets where one part ends and the next begins as soon as a part
contains `s`. What it keeps is the list of the pieces between two separators, and that is
all it keeps: two lists of parts have the same joined list exactly when they have the same
pieces. The parts themselves come back when they contain no separator and their number is
known.

Nothing here names a particular program.
-/
import Mathlib.Data.List.Basic

set_option autoImplicit false

namespace WalStream.Lib

variable {α : Type} [DecidableEq α] {s : α} {parts parts' : List (List α)}

/-- The parts, each cut at the separators it contains. -/
def pieces (s : α) (parts : List (List α)) : List (List α) :=
  parts.flatMap fun part => part.splitOn s

@[simp] theorem pieces_nil : pieces s [] = [] := rfl

@[simp] theorem pieces_cons (part : List α) :
    pieces s (part :: parts) = part.splitOn s ++ pieces s parts := rfl

/-! ## What joining keeps -/

/-- Cutting the joined list at every separator gives the pieces. -/
theorem splitOn_joined (hne : parts ≠ []) :
    ([s].intercalate parts).splitOn s = pieces s parts := by
  induction parts with
  | nil => exact absurd rfl hne
  | cons part parts ih =>
      cases parts with
      | nil => simp
      | cons next parts =>
          rw [List.intercalate_cons_cons, List.append_assoc, List.singleton_append,
            List.splitOn_append_cons_self, ih (List.cons_ne_nil _ _)]
          rfl

/-- **What joining keeps.** Two joined lists are equal exactly when their pieces are. -/
theorem joined_eq_joined_iff (hne : parts ≠ []) (hne' : parts' ≠ []) :
    [s].intercalate parts = [s].intercalate parts' ↔ pieces s parts = pieces s parts' := by
  constructor
  · intro h
    rw [← splitOn_joined hne, ← splitOn_joined hne', h]
  · intro h
    have hback : ∀ {ps : List (List α)}, ps ≠ [] →
        [s].intercalate (pieces s ps) = [s].intercalate ps := by
      intro ps hps
      rw [← splitOn_joined hps, List.intercalate_splitOn]
    rw [← hback hne, ← hback hne', h]

omit [DecidableEq α] in
/-- Two neighbours may be joined first. -/
theorem joined_merge (a b : List α) :
    [s].intercalate ((a ++ s :: b) :: parts) = [s].intercalate (a :: b :: parts) := by
  cases parts with
  | nil => simp
  | cons next parts => simp [List.intercalate_cons_cons]

/-! ## When the parts come back -/

/-- Parts without a separator are their own pieces. -/
theorem pieces_of_free (h : ∀ part ∈ parts, s ∉ part) : pieces s parts = parts := by
  induction parts with
  | nil => rfl
  | cons part parts ih =>
      rw [List.forall_mem_cons] at h
      rw [pieces_cons, List.splitOn_eq_singleton h.1, ih h.2, List.singleton_append]

theorem length_le_length_pieces (s : α) (parts : List (List α)) :
    parts.length ≤ (pieces s parts).length := by
  induction parts with
  | nil => exact Nat.le_refl 0
  | cons part parts ih =>
      have hpos : 0 < (part.splitOn s).length :=
        List.length_pos_iff.mpr (List.splitOn_ne_nil s part)
      rw [pieces_cons, List.length_append, List.length_cons]
      omega

/-- If there are no more pieces than parts, nothing was cut. -/
theorem pieces_eq_self (h : (pieces s parts).length = parts.length) : pieces s parts = parts := by
  induction parts with
  | nil => rfl
  | cons part parts ih =>
      have hpos : 0 < (part.splitOn s).length :=
        List.length_pos_iff.mpr (List.splitOn_ne_nil s part)
      have hle := length_le_length_pieces s parts
      rw [pieces_cons, List.length_append, List.length_cons] at h
      -- the part is one piece, and that piece joined is the part
      obtain ⟨piece, hpiece⟩ : ∃ piece, part.splitOn s = [piece] :=
        List.length_eq_one_iff.mp (by omega)
      have hpart : piece = part := by
        have hjoin : [s].intercalate (part.splitOn s) = part := List.intercalate_splitOn s
        rwa [hpiece, List.intercalate_singleton] at hjoin
      rw [pieces_cons, hpiece, hpart, ih (by omega), List.singleton_append]

/-- **Decoding.** As many parts, joined to the same list, are the same parts if those of
one side contain no separator. -/
theorem eq_of_joined_eq (hne : parts ≠ []) (hlen : parts.length = parts'.length)
    (hfree : ∀ part ∈ parts, s ∉ part)
    (h : [s].intercalate parts = [s].intercalate parts') : parts = parts' := by
  have hne' : parts' ≠ [] := by
    rintro rfl
    exact hne (List.length_eq_zero_iff.mp hlen)
  rw [joined_eq_joined_iff hne hne', pieces_of_free hfree] at h
  rw [h]
  exact pieces_eq_self (by rw [← h, hlen])

/-- **Recutting.** Two or more parts of which one contains the separator are not the only
parts of their number with that joined list: a piece can go to a neighbour. -/
theorem exists_recut (hsep : ∃ part ∈ parts, s ∈ part) (hlen : 2 ≤ parts.length) :
    ∃ parts', parts'.length = parts.length ∧ parts' ≠ parts ∧
      [s].intercalate parts' = [s].intercalate parts := by
  induction parts with
  | nil => simp at hlen
  | cons a parts ih =>
      match parts, ih, hsep, hlen with
      | [], _, _, hlen => simp at hlen
      | b :: rest, ih, hsep, _ =>
          have hcons : ∀ {c : List α} {l l' : List (List α)}, l ≠ [] → l' ≠ [] →
              [s].intercalate l = [s].intercalate l' →
              [s].intercalate (c :: l) = [s].intercalate (c :: l') := by
            intro c l l' hl hl' h
            rw [List.intercalate_cons_of_ne_nil hl, List.intercalate_cons_of_ne_nil hl', h]
          by_cases ha : s ∈ a
          · -- the end of the first part goes to the second
            obtain ⟨x, y, rfl⟩ := List.append_of_mem ha
            refine ⟨x :: (y ++ s :: b) :: rest, by simp, by simp, ?_⟩
            rw [hcons (List.cons_ne_nil _ _) (List.cons_ne_nil _ _) (joined_merge y b),
              joined_merge]
          by_cases hb : s ∈ b
          · -- the beginning of the second part goes to the first
            obtain ⟨x, y, rfl⟩ := List.append_of_mem hb
            refine ⟨(a ++ s :: x) :: y :: rest, by simp, by simp, ?_⟩
            rw [joined_merge,
              hcons (List.cons_ne_nil _ _) (List.cons_ne_nil _ _) (joined_merge x y)]
          · obtain ⟨part, hpart, hs⟩ := hsep
            simp only [List.mem_cons] at hpart
            have hrest : part ∈ rest := by
              rcases hpart with rfl | rfl | hrest
              · exact absurd hs ha
              · exact absurd hs hb
              · exact hrest
            obtain ⟨parts', hlen', hne, hjoin⟩ :=
              ih ⟨part, List.mem_cons_of_mem _ hrest, hs⟩
                (by have := List.length_pos_of_mem hrest; simp; omega)
            have hnil : parts' ≠ [] := by
              rintro rfl
              simp at hlen'
            refine ⟨a :: parts', by simpa using hlen', by simpa using hne, ?_⟩
            exact hcons hnil (List.cons_ne_nil _ _) hjoin

/-! ## Elements -/

omit [DecidableEq α] in
/-- What a joined list contains, the separator apart. -/
theorem mem_joined_iff {c : α} (hc : c ≠ s) :
    c ∈ [s].intercalate parts ↔ ∃ part ∈ parts, c ∈ part := by
  induction parts with
  | nil => simp
  | cons part parts ih =>
      cases parts with
      | nil => simp
      | cons next parts =>
          rw [List.intercalate_cons_cons, List.append_assoc, List.mem_append, List.mem_append, ih,
            List.mem_singleton, or_iff_right hc]
          simp only [List.exists_mem_cons_iff]

/-! ## Counting -/

/-- A joined list has an occurrence of `c` for every part that has one. -/
theorem length_le_count_joined {c : α} (h : ∀ part ∈ parts, c ∈ part) :
    parts.length ≤ ([s].intercalate parts).count c := by
  induction parts with
  | nil => exact Nat.zero_le _
  | cons part parts ih =>
      rw [List.forall_mem_cons] at h
      have hpos : 0 < part.count c := List.count_pos_iff.mpr h.1
      cases parts with
      | nil => simpa using hpos
      | cons next parts =>
          have hrest := ih h.2
          rw [List.intercalate_cons_cons, List.append_assoc, List.count_append,
            List.count_append, List.length_cons]
          omega

end WalStream.Lib

/-
Quantiles of a cumulative histogram, by linear interpolation.

A bucket has an upper bound and counts what lies at or below it, so along a histogram the
bounds rise and the counts do not fall. The quantile of a rank lies in the first bucket
whose count reaches the rank, as far between its bounds as the rank is between its counts.
A rank that no bucket reaches has none.

Nothing here names a particular program.
-/
import Mathlib.Data.List.Chain
import Mathlib.Algebra.Order.Field.Basic
import Mathlib.Tactic.Linarith

set_option autoImplicit false

namespace WalStream.Lib

structure Bucket (α : Type) where
  bound : α
  /-- How many there are up to the bound. -/
  count : α
deriving DecidableEq

variable {α : Type} [Field α] [LinearOrder α]

/-- The second bucket can follow the first. -/
def Bucket.Below (b b' : Bucket α) : Prop := b.bound < b'.bound ∧ b.count ≤ b'.count

instance (b b' : Bucket α) : Decidable (b.Below b') :=
  inferInstanceAs (Decidable (b.bound < b'.bound ∧ b.count ≤ b'.count))

/-- A rank between the counts of two buckets, as a value between their bounds. -/
def interpolate (rank : α) (b b' : Bucket α) : α :=
  b.bound + (rank - b.count) / (b'.count - b.count) * (b'.bound - b.bound)

/-- The quantile of a rank in the buckets that follow `b`. -/
def quantile (rank : α) : Bucket α → List (Bucket α) → Option α
  | _, [] => none
  | b, b' :: bs => if rank ≤ b'.count then some (interpolate rank b b') else quantile rank b' bs

/-- The lower bound of the bucket a rank falls in; the last bucket is unbounded. -/
def lowerBound (rank : α) : Bucket α → List (Bucket α) → α
  | b, [] => b.bound
  | b, b' :: bs => if rank ≤ b'.count then b.bound else lowerBound rank b' bs

/-- The count of the last bucket. -/
def topCount : Bucket α → List (Bucket α) → α
  | b, [] => b.count
  | _, b' :: bs => topCount b' bs

/-! ## Two buckets

Within one bucket the quantile is a line, which rises with the rank and ends at the bucket's
bounds. -/

section Interpolate

variable [IsStrictOrderedRing α] {b b' : Bucket α} {rank rank' : α}

theorem lt_interpolate (hbound : b.bound < b'.bound) (hrank : b.count < rank)
    (hle : rank ≤ b'.count) : b.bound < interpolate rank b b' := by
  have hfraction : 0 < (rank - b.count) / (b'.count - b.count) :=
    div_pos (by linarith) (by linarith)
  have hrange : 0 < b'.bound - b.bound := by linarith
  have hpos := mul_pos hfraction hrange
  unfold interpolate
  linarith

theorem interpolate_le (hbound : b.bound < b'.bound) (hrank : b.count < rank)
    (hle : rank ≤ b'.count) : interpolate rank b b' ≤ b'.bound := by
  have hwidth : 0 < b'.count - b.count := by linarith
  have hfraction : (rank - b.count) / (b'.count - b.count) ≤ 1 := by
    rw [div_le_one hwidth]
    linarith
  have hrange : 0 ≤ b'.bound - b.bound := by linarith
  have hle := mul_le_mul_of_nonneg_right hfraction hrange
  unfold interpolate
  linarith

theorem interpolate_mono (hbound : b.bound < b'.bound) (hrank : b.count < rank)
    (hle : rank ≤ rank') (hle' : rank' ≤ b'.count) :
    interpolate rank b b' ≤ interpolate rank' b b' := by
  have hwidth : 0 ≤ b'.count - b.count := by linarith
  have hfraction : (rank - b.count) / (b'.count - b.count) ≤
      (rank' - b.count) / (b'.count - b.count) :=
    div_le_div_of_nonneg_right (by linarith) hwidth
  have hrange : 0 ≤ b'.bound - b.bound := by linarith
  have hle := mul_le_mul_of_nonneg_right hfraction hrange
  unfold interpolate
  linarith

end Interpolate

/-! ## A histogram

From bucket to bucket by induction: the lines are put end to end, so the quantiles of a
histogram are ordered as their ranks. -/

variable {b : Bucket α} {bs : List (Bucket α)} {rank rank' x y : α}

omit [Field α] in
theorem count_le_topCount (h : (b :: bs).IsChain Bucket.Below) : b.count ≤ topCount b bs := by
  induction bs generalizing b with
  | nil => exact le_refl _
  | cons b' bs ih =>
      rw [List.isChain_cons_cons] at h
      exact le_trans h.1.2 (ih h.2)

/-- A rank has a quantile when the last count reaches it. -/
theorem quantile_eq_none_iff (h : (b :: bs).IsChain Bucket.Below) (hrank : b.count < rank) :
    quantile rank b bs = none ↔ topCount b bs < rank := by
  induction bs generalizing b with
  | nil => exact iff_of_true rfl hrank
  | cons b' bs ih =>
      rw [List.isChain_cons_cons] at h
      have htop := count_le_topCount h.2
      unfold quantile topCount
      by_cases hle : rank ≤ b'.count
      · rw [if_pos hle]
        exact iff_of_false (by simp) (not_lt.mpr (le_trans hle htop))
      · rw [if_neg hle]
        exact ih h.2 (not_le.mp hle)

omit [Field α] in
theorem bound_le_lowerBound (h : (b :: bs).IsChain Bucket.Below) :
    b.bound ≤ lowerBound rank b bs := by
  induction bs generalizing b with
  | nil => exact le_refl _
  | cons b' bs ih =>
      rw [List.isChain_cons_cons] at h
      unfold lowerBound
      split
      · exact le_refl _
      · exact le_trans (le_of_lt h.1.1) (ih h.2)

variable [IsStrictOrderedRing α]

/-- A quantile lies above the lower bound of its bucket. -/
theorem lowerBound_lt_quantile (h : (b :: bs).IsChain Bucket.Below) (hrank : b.count < rank)
    (hx : quantile rank b bs = some x) : lowerBound rank b bs < x := by
  induction bs generalizing b with
  | nil => cases hx
  | cons b' bs ih =>
      rw [List.isChain_cons_cons] at h
      unfold quantile at hx
      unfold lowerBound
      by_cases hle : rank ≤ b'.count
      · rw [if_pos hle] at hx ⊢
        obtain rfl := Option.some.inj hx
        exact lt_interpolate h.1.1 hrank hle
      · rw [if_neg hle] at hx ⊢
        exact ih h.2 (not_le.mp hle) hx

/-- **Quantiles are ordered as their ranks.** -/
theorem quantile_mono (h : (b :: bs).IsChain Bucket.Below) (hrank : b.count < rank)
    (hle : rank ≤ rank') (hx : quantile rank b bs = some x)
    (hy : quantile rank' b bs = some y) : x ≤ y := by
  induction bs generalizing b with
  | nil => cases hx
  | cons b' bs ih =>
      rw [List.isChain_cons_cons] at h
      unfold quantile at hx hy
      by_cases hsecond : rank' ≤ b'.count
      · -- both in this bucket
        rw [if_pos (le_trans hle hsecond)] at hx
        rw [if_pos hsecond] at hy
        obtain rfl := Option.some.inj hx
        obtain rfl := Option.some.inj hy
        exact interpolate_mono h.1.1 hrank hle hsecond
      rw [if_neg hsecond] at hy
      by_cases hfirst : rank ≤ b'.count
      · -- the bound of this bucket lies between them
        rw [if_pos hfirst] at hx
        obtain rfl := Option.some.inj hx
        calc interpolate rank b b' ≤ b'.bound := interpolate_le h.1.1 hrank hfirst
          _ ≤ lowerBound rank' b' bs := bound_le_lowerBound h.2
          _ ≤ y := le_of_lt (lowerBound_lt_quantile h.2 (not_le.mp hsecond) hy)
      · rw [if_neg hfirst] at hx
        exact ih h.2 (not_le.mp hfirst) hx hy

end WalStream.Lib

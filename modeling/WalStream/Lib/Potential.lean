/-
The potential method, over runs.

`rank` is what is still to be done in a state. A step that works lowers it, and a step that
brings new work raises it by no more than its cost. Along a whole run the work done and what
is left of it are then paid for by the rank at the start and the costs. If moreover some step
lowers the rank wherever the goal is not reached, the goal can be reached from everywhere.

Nothing here names a particular system.
-/
import WalStream.Lib.Run
import Mathlib.Algebra.GroupWithZero.Nat

set_option autoImplicit false

namespace WalStream.Lib

variable {σ α : Type*} {step : σ → α → Option σ} {s₀ s t : σ} {tr tr' : List (σ × α)}

/-! ## Sums along a trace -/

/-- The sum of `f` over the steps of a trace. -/
def total (f : σ → α → Nat) (tr : List (σ × α)) : Nat := (tr.map fun p => f p.1 p.2).sum

@[simp] theorem total_nil (f : σ → α → Nat) : total f ([] : List (σ × α)) = 0 := rfl

@[simp] theorem total_cons (f : σ → α → Nat) (p : σ × α) :
    total f (p :: tr) = f p.1 p.2 + total f tr := rfl

theorem total_zero : total (fun _ _ => 0) tr = 0 := by
  induction tr with
  | nil => rfl
  | cons p tr ih => rw [total_cons, ih]

/-- The sum of an indicator is a count. -/
theorem total_ite (p : σ → α → Prop) [∀ s a, Decidable (p s a)] :
    total (fun s a => if p s a then 1 else 0) tr = tr.countP fun q => decide (p q.1 q.2) := by
  induction tr with
  | nil => rfl
  | cons q tr ih =>
      rw [total_cons, ih, List.countP_cons, Nat.add_comm]
      by_cases hq : p q.1 q.2
      · rw [if_pos hq, if_pos (decide_eq_true hq)]
      · rw [if_neg hq, if_neg (by simpa using hq)]

/-! ## Paying for the work -/

/-- **The potential rule.** If under the invariant `I` every step that meets `C` does its work
at the expense of the rank and of its own cost, then so does every run. -/
theorem Run.potential {C : σ → α → Prop} {I : σ → Prop} (rank : σ → Nat)
    (work cost : σ → α → Nat)
    (hstep : ∀ s a t, I s → C s a → step s a = some t →
      I t ∧ rank t + work s a ≤ rank s + cost s a)
    (h0 : I s₀) (hrun : Run step s₀ tr s) (hC : StepsMeet C tr) :
    rank s + total work tr ≤ rank s₀ + total cost tr := by
  have hI : ∀ s a t, I s → C s a → step s a = some t → I t :=
    fun s a t hs hCa ht => (hstep s a t hs hCa ht).1
  induction hrun with
  | nil => exact Nat.le_refl _
  | @cons tr s t a hr hs ih =>
      rw [stepsMeet_cons] at hC
      have hpaid := (hstep s a t (Run.invariant hI h0 hr hC.2) hC.1 hs).2
      have hbefore := ih hC.2
      simp only [total_cons]
      omega

/-! ## Reaching the goal -/

/-- A run followed by a run. -/
theorem Run.append (h : Run step s₀ tr s) (h' : Run step s tr' t) : Run step s₀ (tr' ++ tr) t := by
  induction h' with
  | nil => exact h
  | cons _ hs ih => exact Run.cons ih hs

/-- The run up to one of its steps. -/
theorem Run.before {p : σ × α} {older : List (σ × α)} (hrun : Run step s₀ tr s)
    (h : p :: older <:+ tr) : Run step s₀ older p.1 := by
  induction hrun with
  | nil => cases List.suffix_nil.mp h
  | cons hr _ ih =>
      rcases List.suffix_cons_iff.mp h with heq | hsuffix
      · cases heq
        exact hr
      · exact ih hsuffix

/-- **The progress rule.** If under `I` some step that meets `C` keeps `I` and lowers the rank
wherever the goal is not reached, then steps that meet `C` lead to the goal. -/
theorem exists_run_of_rank {C : σ → α → Prop} {I goal : σ → Prop} (rank : σ → Nat)
    (hstep : ∀ s, I s → ¬ goal s → ∃ a t, C s a ∧ step s a = some t ∧ I t ∧ rank t < rank s)
    (h : I s) : ∃ tr t, Run step s tr t ∧ StepsMeet C tr ∧ I t ∧ goal t := by
  -- on the rank
  induction hn : rank s using Nat.strongRecOn generalizing s with
  | ind n ih =>
      by_cases hgoal : goal s
      · exact ⟨[], s, Run.nil, stepsMeet_nil C, h, hgoal⟩
      · obtain ⟨a, u, hCa, hu, hIu, hlt⟩ := hstep s h hgoal
        obtain ⟨tr, t, hrun, hC, hIt, ht⟩ := ih (rank u) (hn ▸ hlt) hIu rfl
        refine ⟨tr ++ [(s, a)], t, Run.after hu hrun, fun p hp => ?_, hIt, ht⟩
        rcases List.mem_append.mp hp with hp | hp
        · exact hC p hp
        · rw [List.mem_singleton.mp hp]
          exact hCa

end WalStream.Lib

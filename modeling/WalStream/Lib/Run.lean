/-
Runs of a partial step function.

A system is a state type, an action type and `step : σ → α → Option σ`, where `none`
says that the action is not enabled. A run is the list of the `(state, action)` pairs
it went through, newest first, together with the state it ends in. Keeping the list is
what lets a result speak about *which* steps were taken: the rules below carry a
condition on the steps, and `Run.exact` turns a step-by-step equivalence into one about
whole runs.

Nothing here names a particular system.
-/
import Mathlib.Logic.Basic
import Mathlib.Tactic.TypeStar

set_option autoImplicit false

namespace WalStream.Lib

variable {σ α : Type*} {step : σ → α → Option σ} {s₀ s t : σ} {tr : List (σ × α)}

/-! ## Runs -/

/-- `Run step s₀ tr s`: from `s₀`, taking the steps `tr` (newest first), the system
reaches `s`. -/
inductive Run (step : σ → α → Option σ) (s₀ : σ) : List (σ × α) → σ → Prop
  | nil : Run step s₀ [] s₀
  | cons {tr : List (σ × α)} {s t : σ} {a : α} :
      Run step s₀ tr s → step s a = some t → Run step s₀ ((s, a) :: tr) t

/-- Every step of the trace satisfies `C`, a condition on the state before the step and
the action taken there. -/
def StepsMeet (C : σ → α → Prop) (tr : List (σ × α)) : Prop :=
  ∀ p ∈ tr, C p.1 p.2

@[simp] theorem stepsMeet_nil (C : σ → α → Prop) : StepsMeet C [] := by
  simp [StepsMeet]

@[simp] theorem stepsMeet_cons (C : σ → α → Prop) (p : σ × α) :
    StepsMeet C (p :: tr) ↔ C p.1 p.2 ∧ StepsMeet C tr := by
  simp [StepsMeet]

/-! ## The induction rules -/

/-- **The invariant rule.** What holds initially and is preserved by every step that
meets `C` holds at the end of every run whose steps all meet `C`. -/
theorem Run.invariant {C : σ → α → Prop} {I : σ → Prop}
    (hstep : ∀ s a t, I s → C s a → step s a = some t → I t)
    (h0 : I s₀) (hrun : Run step s₀ tr s) (hC : StepsMeet C tr) : I s := by
  induction hrun with
  | nil => exact h0
  | cons _ hs ih =>
      rw [stepsMeet_cons] at hC
      exact hstep _ _ _ (ih hC.2) hC.1 hs

/-- The invariant also holds in every state the run went through. -/
theorem Run.invariant_mem {C : σ → α → Prop} {I : σ → Prop}
    (hstep : ∀ s a t, I s → C s a → step s a = some t → I t)
    (h0 : I s₀) (hrun : Run step s₀ tr s) (hC : StepsMeet C tr) :
    ∀ p ∈ tr, I p.1 := by
  induction hrun with
  | nil => intro p hp; cases hp
  | cons hr hs ih =>
      rw [stepsMeet_cons] at hC
      intro p hp
      rcases List.mem_cons.mp hp with rfl | hp
      · exact Run.invariant hstep h0 hr hC.2
      · exact ih hC.2 p hp

/-- **The exact rule.** Suppose that, under the bookkeeping invariant `J`, a step
re-establishes `P` exactly when it meets `C`. Then the runs along which `P` holds
throughout are exactly the runs whose steps all meet `C`. `J` may rely on `P`: it is
only asked to survive the steps that keep `P`. -/
theorem Run.exact {C : σ → α → Prop} {P J : σ → Prop}
    (hiff : ∀ s a t, P s → J s → step s a = some t → (P t ↔ C s a))
    (hJ : ∀ s a t, P s → J s → step s a = some t → P t → J t)
    (hP0 : P s₀) (hJ0 : J s₀) (hrun : Run step s₀ tr s) :
    ((∀ p ∈ tr, P p.1) ∧ P s) ↔ StepsMeet C tr := by
  -- `J` holds wherever `P` has held so far, so the induction carries both.
  suffices hmain : (((∀ p ∈ tr, P p.1) ∧ P s) ↔ StepsMeet C tr) ∧
      (StepsMeet C tr → P s ∧ J s) from hmain.1
  induction hrun with
  | nil => simp [hP0, hJ0]
  | @cons tr s t a hr hs ih =>
      obtain ⟨hih, hgood⟩ := ih
      constructor
      · rw [stepsMeet_cons]
        constructor
        · rintro ⟨hall, hPt⟩
          have hPs : P s := hall (s, a) (List.mem_cons_self ..)
          have htr : StepsMeet C tr :=
            hih.mp ⟨fun p hp => hall p (List.mem_cons_of_mem _ hp), hPs⟩
          exact ⟨(hiff s a t hPs (hgood htr).2 hs).mp hPt, htr⟩
        · rintro ⟨hCa, htr⟩
          obtain ⟨hPs, hJs⟩ := hgood htr
          refine ⟨fun p hp => ?_, (hiff s a t hPs hJs hs).mpr hCa⟩
          rcases List.mem_cons.mp hp with rfl | hp
          · exact hPs
          · exact (hih.mpr htr).1 p hp
      · intro hC
        rw [stepsMeet_cons] at hC
        obtain ⟨hPs, hJs⟩ := hgood hC.2
        have hPt := (hiff s a t hPs hJs hs).mpr hC.1
        exact ⟨hPt, hJ s a t hPs hJs hs hPt⟩

/-- Every step of a run was enabled. -/
theorem Run.enabled (hrun : Run step s₀ tr s) : ∀ p ∈ tr, ∃ t, step p.1 p.2 = some t := by
  induction hrun with
  | nil => intro p hp; cases hp
  | cons _ hs ih =>
      intro p hp
      rcases List.mem_cons.mp hp with rfl | hp
      · exact ⟨_, hs⟩
      · exact ih p hp

/-- Two conditions that agree on the enabled steps hold of the same runs. -/
theorem Run.stepsMeet_iff {C D : σ → α → Prop}
    (h : ∀ s a t, step s a = some t → (C s a ↔ D s a)) (hrun : Run step s₀ tr s) :
    StepsMeet C tr ↔ StepsMeet D tr := by
  constructor
  · intro hC p hp
    obtain ⟨t, ht⟩ := hrun.enabled p hp
    exact (h _ _ t ht).mp (hC p hp)
  · intro hD p hp
    obtain ⟨t, ht⟩ := hrun.enabled p hp
    exact (h _ _ t ht).mpr (hD p hp)

/-- **The persistence rule.** What every step that meets `C` preserves still holds at the
end of the run if it held anywhere along it. -/
theorem Run.persists {C : σ → α → Prop} {G : σ → Prop}
    (hstep : ∀ s a t, G s → C s a → step s a = some t → G t)
    (hrun : Run step s₀ tr s) (hC : StepsMeet C tr) : ∀ p ∈ tr, G p.1 → G s := by
  induction hrun with
  | nil => intro p hp; cases hp
  | cons _ hs ih =>
      rw [stepsMeet_cons] at hC
      intro p hp hG
      rcases List.mem_cons.mp hp with rfl | hp
      · exact hstep _ _ _ hG hC.1 hs
      · exact hstep _ _ _ (ih hC.2 p hp hG) hC.1 hs

/-- **The holding rule.** Suppose that a step lets go of what is held or leaves it, and that the
steps that count need it held and let go of it. Then what is held later was held at first, and
one step counts at most. -/
theorem Run.holding {β : Type*} {C : σ → α → Prop} (held : σ → Option β) (counts : σ × α → Bool)
    (hstep : ∀ s a t, C s a → step s a = some t → held t = none ∨ held t = held s)
    (hcounts : ∀ s a t, C s a → step s a = some t → counts (s, a) = true →
      (held s).isSome = true ∧ held t = none)
    (hrun : Run step s₀ tr s) (hC : StepsMeet C tr) :
    (held s = none ∨ held s = held s₀) ∧ tr.countP counts + (held s).isSome.toNat ≤ 1 := by
  induction hrun with
  | nil => exact ⟨Or.inr rfl, by rw [List.countP_nil, Nat.zero_add]; exact Bool.toNat_le _⟩
  | @cons tr s t a _ hs ih =>
      rw [stepsMeet_cons] at hC
      obtain ⟨hheld, hcount⟩ := ih hC.2
      have hkept := hstep s a t hC.1 hs
      refine ⟨hkept.elim Or.inl fun hsame => hsame ▸ hheld, ?_⟩
      rw [List.countP_cons]
      by_cases hthis : counts (s, a) = true
      · obtain ⟨hsome, hnone⟩ := hcounts s a t hC.1 hs hthis
        rw [hsome] at hcount
        rw [hnone, if_pos hthis]
        simpa using hcount
      · rw [if_neg hthis, Nat.add_zero]
        rcases hkept with hnone | hsame
        · rw [hnone]
          exact Nat.le_trans (Nat.le_add_right _ _) hcount
        · rw [hsame]
          exact hcount

/-! ## Executing a list of actions -/

/-- Take the actions in order; `none` as soon as one is not enabled. -/
def exec (step : σ → α → Option σ) : σ → List α → Option σ
  | s, [] => some s
  | s, a :: as => (step s a).bind fun t => exec step t as

/-- Executing the actions only takes steps that meet `C`. -/
def ExecMeets (step : σ → α → Option σ) (C : σ → α → Prop) : σ → List α → Prop
  | _, [] => True
  | s, a :: as => C s a ∧ ∀ t, step s a = some t → ExecMeets step C t as

instance ExecMeets.decidable {C : σ → α → Prop} [∀ s, DecidablePred (C s)] :
    ∀ (s : σ) (acts : List α), Decidable (ExecMeets step C s acts)
  | _, [] => isTrue trivial
  | s, a :: as =>
      match hs : step s a with
      | none => decidable_of_iff (C s a) (by simp [ExecMeets, hs])
      | some t =>
          have : Decidable (ExecMeets step C t as) := ExecMeets.decidable t as
          decidable_of_iff (C s a ∧ ExecMeets step C t as) (by simp [ExecMeets, hs])

/-- A condition that each of the actions meets in every state. -/
theorem ExecMeets.of_forall {C : σ → α → Prop} {acts : List α} (h : ∀ s, ∀ a ∈ acts, C s a) :
    ExecMeets step C s acts := by
  induction acts generalizing s with
  | nil => exact trivial
  | cons a as ih =>
      exact ⟨h s a (List.mem_cons_self ..), fun _ _ =>
        ih fun s b hb => h s b (List.mem_cons_of_mem _ hb)⟩

theorem ExecMeets.and {C D : σ → α → Prop} {acts : List α} (hC : ExecMeets step C s acts)
    (hD : ExecMeets step D s acts) : ExecMeets step (fun s a => C s a ∧ D s a) s acts := by
  induction acts generalizing s with
  | nil => exact trivial
  | cons a as ih => exact ⟨⟨hC.1, hD.1⟩, fun t ht => ih (hC.2 t ht) (hD.2 t ht)⟩

theorem Run.exec_meets {C : σ → α → Prop} {acts : List α} (hrun : Run step s₀ tr s)
    (htr : StepsMeet C tr) (hacts : ExecMeets step C s acts)
    (h : Lib.exec step s acts = some t) : ∃ tr', Run step s₀ tr' t ∧ StepsMeet C tr' := by
  induction acts generalizing tr s with
  | nil =>
      simp only [Lib.exec, Option.some.injEq] at h
      subst h
      exact ⟨tr, hrun, htr⟩
  | cons a as ih =>
      simp only [Lib.exec, Option.bind_eq_some_iff] at h
      obtain ⟨u, hu, hrest⟩ := h
      exact ih (Run.cons hrun hu) ((stepsMeet_cons C _).mpr ⟨hacts.1, htr⟩) (hacts.2 u hu) hrest

/-- A decidable condition that comes out true at the end of an execution names a reachable
state where it holds, and a run to it whose steps meet what those of the execution meet. -/
theorem exists_run_meeting_of_exec {C : σ → α → Prop} {p : σ → Prop} [DecidablePred p]
    (acts : List α) (hacts : ExecMeets step C s₀ acts)
    (h : (Lib.exec step s₀ acts).map (fun s => decide (p s)) = some true) :
    ∃ tr s, Run step s₀ tr s ∧ StepsMeet C tr ∧ p s := by
  cases he : Lib.exec step s₀ acts with
  | none => simp [he] at h
  | some s =>
      simp only [he, Option.map_some, Option.some.injEq, decide_eq_true_eq] at h
      obtain ⟨tr, hrun, htr⟩ := Run.exec_meets Run.nil (stepsMeet_nil C) hacts he
      exact ⟨tr, s, hrun, htr, h⟩

/-- The same, with no condition on the steps. -/
theorem exists_run_of_exec {p : σ → Prop} [DecidablePred p] (acts : List α)
    (h : (Lib.exec step s₀ acts).map (fun s => decide (p s)) = some true) :
    ∃ tr s, Run step s₀ tr s ∧ p s := by
  have hacts : ExecMeets step (fun _ _ => True) s₀ acts := .of_forall fun _ _ _ => trivial
  obtain ⟨tr, s, hrun, _, hs⟩ := exists_run_meeting_of_exec acts hacts h
  exact ⟨tr, s, hrun, hs⟩

/-! ## The trace of an execution -/

/-- The states an execution goes through, with the actions taken there, newest first. -/
def trace (step : σ → α → Option σ) : σ → List α → List (σ × α)
  | _, [] => []
  | s, a :: as =>
      (match step s a with
        | some t => trace step t as
        | none => []) ++ [(s, a)]

/-- A step, and then a run from the state it leads to. -/
theorem Run.after {a : α} {s₁ : σ} (hs : step s₀ a = some s₁) (hrun : Run step s₁ tr s) :
    Run step s₀ (tr ++ [(s₀, a)]) s := by
  induction hrun with
  | nil => exact Run.cons Run.nil hs
  | cons _ ht ih => exact Run.cons ih ht

/-- An execution that succeeds is a run. -/
theorem run_trace {acts : List α} (h : exec step s acts = some t) :
    Run step s (trace step s acts) t := by
  induction acts generalizing s with
  | nil =>
      cases h
      exact Run.nil
  | cons a as ih =>
      simp only [exec, Option.bind_eq_some_iff] at h
      obtain ⟨u, hu, hrest⟩ := h
      simp only [trace, hu]
      exact Run.after hu (ih hrest)

theorem mem_of_mem_trace {acts : List α} {p : σ × α} (h : p ∈ trace step s acts) : p.2 ∈ acts := by
  induction acts generalizing s with
  | nil => cases h
  | cons a as ih =>
      rcases List.mem_append.mp h with h | h
      · split at h
        · exact List.mem_cons_of_mem _ (ih h)
        · cases h
      · obtain rfl := List.mem_singleton.mp h
        exact List.mem_cons_self ..

end WalStream.Lib

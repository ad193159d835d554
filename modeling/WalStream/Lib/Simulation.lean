/-
Simulation between two systems, over runs.

A relation between the states of two systems is a simulation if every step of the first can
be matched by a run of the second that shows the same and ends in related states. Then every
run of the first is matched by one of the second, and what is shown along it is the same.
Where the related state is a function of the state, and the matching step one of the step, the
second run is `seen` in the first.

Nothing here names a particular system.
-/
import WalStream.Lib.Potential

set_option autoImplicit false

namespace WalStream.Lib

variable {σ α σ' α' β : Type*} {step : σ → α → Option σ} {step' : σ' → α' → Option σ'}
variable {show_step : σ → α → List β} {show_step' : σ' → α' → List β} {R : σ → σ' → Prop}
variable {s₀ s : σ} {u₀ : σ'} {tr : List (σ × α)}

/-- What is shown along a trace, oldest first. -/
def shown (show_step : σ → α → List β) (tr : List (σ × α)) : List β :=
  tr.reverse.flatMap fun p => show_step p.1 p.2

@[simp] theorem shown_nil : shown show_step ([] : List (σ × α)) = [] := rfl

@[simp] theorem shown_cons (p : σ × α) :
    shown show_step (p :: tr) = shown show_step tr ++ show_step p.1 p.2 := by
  simp [shown]

theorem shown_append (tr' : List (σ × α)) :
    shown show_step (tr' ++ tr) = shown show_step tr ++ shown show_step tr' := by
  simp [shown]

/-- `R` is a simulation by `step'` of the steps of `step` that meet `C`. -/
def Simulates (step : σ → α → Option σ) (step' : σ' → α' → Option σ')
    (show_step : σ → α → List β) (show_step' : σ' → α' → List β) (C : σ → α → Prop)
    (R : σ → σ' → Prop) : Prop :=
  ∀ s a t u, R s u → C s a → step s a = some t →
    ∃ tr u', Run step' u tr u' ∧ shown show_step' tr = show_step s a ∧ R t u'

/-- **The simulation rule.** -/
theorem Simulates.run {C : σ → α → Prop} (h : Simulates step step' show_step show_step' C R)
    (h0 : R s₀ u₀) (hrun : Run step s₀ tr s) (hC : StepsMeet C tr) :
    ∃ tr' u, Run step' u₀ tr' u ∧ shown show_step' tr' = shown show_step tr ∧ R s u := by
  induction hrun with
  | nil => exact ⟨[], u₀, Run.nil, rfl, h0⟩
  | cons _ hs ih =>
      rw [stepsMeet_cons] at hC
      obtain ⟨tr', u, hrun', hshown, hR⟩ := ih hC.2
      obtain ⟨tr'', u', hrun'', hstep, hR'⟩ := h _ _ _ _ hR hC.1 hs
      refine ⟨tr'' ++ tr', u', Run.append hrun' hrun'', ?_, hR'⟩
      rw [shown_append, shown_cons, hshown, hstep]

/-! ## Abstraction -/

/-- What an abstraction of the states and the actions sees of a trace: the steps it has an
action for. -/
def seen (state : σ → σ') (action : σ → α → Option α') (tr : List (σ × α)) : List (σ' × α') :=
  tr.filterMap fun p => (action p.1 p.2).map fun b => (state p.1, b)

section

variable {state : σ → σ'} {action : σ → α → Option α'}

theorem seen_cons_none {s : σ} {a : α} (h : action s a = none) :
    seen state action ((s, a) :: tr) = seen state action tr :=
  List.filterMap_cons_none (by rw [h]; rfl)

theorem seen_cons_some {s : σ} {a : α} {b : α'} (h : action s a = some b) :
    seen state action ((s, a) :: tr) = (state s, b) :: seen state action tr :=
  List.filterMap_cons_some (by rw [h]; rfl)

theorem mem_seen {q : σ' × α'} :
    q ∈ seen state action tr ↔ ∃ p ∈ tr, ∃ b, action p.1 p.2 = some b ∧ (state p.1, b) = q := by
  simp only [seen, List.mem_filterMap, Option.map_eq_some_iff]

/-- A step with an action is a step of the abstract system, one without leaves its state. -/
def Abstracts (step : σ → α → Option σ) (step' : σ' → α' → Option σ') (state : σ → σ')
    (action : σ → α → Option α') : Prop :=
  ∀ s a t, step s a = some t →
    (∀ b, action s a = some b → step' (state s) b = some (state t)) ∧
      (action s a = none → state t = state s)

/-- **The abstraction rule.** -/
theorem Abstracts.run (h : Abstracts step step' state action) (hrun : Run step s₀ tr s) :
    Run step' (state s₀) (seen state action tr) (state s) := by
  induction hrun with
  | nil => exact Run.nil
  | @cons tr s t a _ hs ih =>
      obtain ⟨hsome, hnone⟩ := h s a t hs
      cases ha : action s a with
      | none =>
          rw [seen_cons_none ha, hnone ha]
          exact ih
      | some b =>
          rw [seen_cons_some ha]
          exact Run.cons ih (hsome b ha)

/-- What is shown step by step is shown along the trace. -/
theorem shown_seen (hsome : ∀ s a b, action s a = some b → show_step' (state s) b = show_step s a)
    (hnone : ∀ s a, action s a = none → show_step s a = []) (tr : List (σ × α)) :
    shown show_step' (seen state action tr) = shown show_step tr := by
  induction tr with
  | nil => rfl
  | cons p tr ih =>
      obtain ⟨s, a⟩ := p
      cases ha : action s a with
      | none => rw [seen_cons_none ha, ih, shown_cons, hnone s a ha, List.append_nil]
      | some b => rw [seen_cons_some ha, shown_cons, ih, shown_cons, hsome s a b ha]

/-- A condition on the abstract steps, as one on the steps. -/
theorem stepsMeet_seen {C : σ' → α' → Prop} :
    StepsMeet C (seen state action tr) ↔
      StepsMeet (fun s a => ∀ b, action s a = some b → C (state s) b) tr := by
  constructor
  · intro h p hp b hb
    exact h (state p.1, b) (mem_seen.mpr ⟨p, hp, b, hb, rfl⟩)
  · intro h q hq
    obtain ⟨p, hp, b, hb, rfl⟩ := mem_seen.mp hq
    exact h p hp b hb

end

end WalStream.Lib

/-
Who works on the job.

`_acquire_job` gives the job to one worker, atomically. It can be taken from that worker
without its knowledge: the lease expires while it waits, or the job is paused and resumed
through the API. The worker only looks at the job's status, and only between two events; it
never looks at `worker_id` again. The results here say that a worker that sends an event or
commits a transaction is the last one that acquired the job, in every run in which no worker
acquires it while another is still executing it, and that this can fail otherwise.
-/
import WalStream.Job.System

set_option autoImplicit false

namespace WalStream.Job

open Lib Source

/-! ## Acting on the job -/

/-- The next step of the worker calls `ReplayEvent`, or commits a transaction. -/
def Phase.acts : Phase → Bool
  | .in_hand _ _ _ (.ready _) => true
  | .writing _ _ => true
  | _ => false

/-- `w` acquired the job, and nobody else has since its last acquisition. -/
def Sys.LastOwner (s : Sys) (w : Nat) : Prop := s.owners.head? = some w

instance (s : Sys) (w : Nat) : Decidable (s.LastOwner w) :=
  inferInstanceAs (Decidable (s.owners.head? = some w))

/-- The step is not an acquisition while another worker is executing the job. -/
def AcquiredAlone (s : Sys) : Action → Prop
  | .acquire w => ∀ v, v ≠ w → (s.workers v).phase = .idle
  | _ => True

/-! ## The invariant

If the job is acquired only while nobody else executes it, then whoever executes it was the last
to acquire it. The condition is about the steps that acquire, and says nothing of clocks. -/

/-- Only the last owner executes the job. -/
def OnlyLastOwner (s : Sys) : Prop := ∀ w, (s.workers w).phase ≠ .idle → s.LastOwner w

section

variable {cfg : Config} {s t : Sys} {a : Action}

/-- A worker that executes the job after a step did so before, or has just acquired it. -/
theorem executing_cases (hs : step cfg s a = some t) {w : Nat}
    (hw : (t.workers w).phase ≠ .idle) :
    (s.workers w).phase ≠ .idle ∨ a = .acquire w := by
  rcases phase_cases hs w with hph | hph | ⟨ha, _, _⟩ | ⟨error, _, hph⟩ | ⟨input, m, _, hm, _⟩
  · exact Or.inl (by rw [← hph]; exact hw)
  · exact absurd hph hw
  · exact Or.inr ha
  · refine Or.inl fun hidle => ?_
    rw [hidle] at hph
    cases hph
  · refine Or.inl fun hidle => ?_
    simp only [Worker.go, hidle] at hm
    cases hm

/-- While a single worker acquires the job, everybody else stays idle. -/
theorem idle_of_others {w : Nat} (hidle : ∀ v, v ≠ w → (s.workers v).phase = .idle)
    (ha : ∀ v, a = .acquire v → v = w) (hs : step cfg s a = some t) :
    ∀ v, v ≠ w → (t.workers v).phase = .idle := by
  intro v hv
  by_contra hexec
  rcases executing_cases hs hexec with hexec | hacquire
  · exact hexec (hidle v hv)
  · exact hv (ha v hacquire)

/-- In a run in which a single worker acquires the job, everybody else is idle throughout. -/
theorem others_idle_of_run {w : Nat} {tr : List (Sys × Action)}
    (hidle : ∀ v, v ≠ w → (s.workers v).phase = .idle) (hrun : Run (step cfg) s tr t)
    (hacts : ∀ p ∈ tr, ∀ v, p.2 = .acquire v → v = w) :
    (∀ p ∈ tr, ∀ v, v ≠ w → (p.1.workers v).phase = .idle) ∧
      ∀ v, v ≠ w → (t.workers v).phase = .idle := by
  have hstep : ∀ s a t, (∀ v, v ≠ w → (s.workers v).phase = .idle) →
      (∀ v, a = .acquire v → v = w) → step cfg s a = some t →
        ∀ v, v ≠ w → (t.workers v).phase = .idle :=
    fun s a t hidle ha hs => idle_of_others hidle ha hs
  exact ⟨hrun.invariant_mem hstep hidle hacts, hrun.invariant hstep hidle hacts⟩

/-- Actions in which a single worker acquires the job, and whatever may follow while the
others are idle. -/
theorem execMeets_alone_append {w : Nat} {acts rest : List Action}
    (hidle : ∀ v, v ≠ w → (s.workers v).phase = .idle)
    (hacts : ∀ v, Action.acquire v ∈ acts → v = w)
    (hrest : ∀ t : Sys, (∀ v, v ≠ w → (t.workers v).phase = .idle) →
      ExecMeets (Job.step cfg) AcquiredAlone t rest) :
    ExecMeets (Job.step cfg) AcquiredAlone s (acts ++ rest) := by
  induction acts generalizing s with
  | nil => exact hrest s hidle
  | cons a acts ih =>
      have ha : ∀ v, a = .acquire v → v = w := fun v ha => hacts v (by rw [← ha]; simp)
      refine ⟨?_, fun t hs => ih (idle_of_others hidle ha hs) fun v hmem =>
        hacts v (List.mem_cons_of_mem _ hmem)⟩
      cases a with
      | acquire v =>
          obtain rfl := ha v rfl
          exact hidle
      | _ => exact trivial

theorem execMeets_alone {w : Nat} {acts : List Action}
    (hidle : ∀ v, v ≠ w → (s.workers v).phase = .idle)
    (hacts : ∀ v, Action.acquire v ∈ acts → v = w) :
    ExecMeets (Job.step cfg) AcquiredAlone s acts := by
  rw [← List.append_nil acts]
  exact execMeets_alone_append hidle hacts fun _ _ => trivial

/-- A worker that has died leaves the job to the next one. -/
theorem execMeets_crash {v w : Nat} {acts rest : List Action}
    (hidle : ∀ u, u ≠ v → (s.workers u).phase = .idle)
    (hacts : ∀ u, Action.acquire u ∈ acts → u = v)
    (hrest : ∀ u, Action.acquire u ∈ rest → u = w) :
    ExecMeets (Job.step cfg) AcquiredAlone s (acts ++ .crash v :: rest) := by
  refine execMeets_alone_append hidle hacts fun t ht => ⟨trivial, fun t' hs => ?_⟩
  refine execMeets_alone (fun u _ => ?_) hrest
  cases hs
  by_cases hu : u = v
  · rw [hu]
    simp [Sys.set_worker, Worker.gone]
  · simpa [Sys.set_worker, hu] using ht u hu

/-- Only an acquisition changes the owners. -/
theorem owners_cases (hs : step cfg s a = some t) :
    t.owners = s.owners ∨ ∃ w, a = .acquire w ∧ t.owners = w :: s.owners := by
  cases step_took hs with
  | acquire w _ _ => exact Or.inr ⟨w, rfl, rfl⟩
  | _ => exact Or.inl rfl

theorem OnlyLastOwner.step (h : OnlyLastOwner s) (halone : AcquiredAlone s a)
    (hs : step cfg s a = some t) : OnlyLastOwner t := by
  intro v hv
  have hexec := executing_cases hs hv
  rcases owners_cases hs with howners | ⟨w, rfl, howners⟩
  · rw [Sys.LastOwner, howners]
    rcases hexec with hexec | rfl
    · exact h v hexec
    · cases step_took hs with
      | acquire _ hidle _ => simp at howners
  · rw [Sys.LastOwner, howners, List.head?_cons]
    by_cases hvw : v = w
    · rw [hvw]
    · -- every other worker was idle, and only `w` leaves idleness in this step
      rcases hexec with hexec | hacquire
      · exact absurd (halone v hvw) hexec
      · cases hacquire
        exact absurd rfl hvw

/-- **Sole ownership.** In every run in which the job is only acquired while no other worker
is executing it, whoever calls `ReplayEvent` or commits a transaction is the last worker that
acquired the job. -/
theorem acts_only_as_last_owner {speed_factor : Rat} {world : World} {clock : Nat}
    {tr : List (Sys × Action)}
    (hrun : Run (step cfg) (Sys.initial speed_factor world clock) tr s)
    (halone : StepsMeet AcquiredAlone tr) :
    ∀ p ∈ tr, ∀ w input, p.2 = .go w input → (p.1.workers w).phase.acts = true →
      p.1.LastOwner w := by
  have h0 : OnlyLastOwner (Sys.initial speed_factor world clock) := fun w hw => absurd rfl hw
  have hinv := hrun.invariant_mem (I := OnlyLastOwner)
    (fun s a t hI hC hs => hI.step hC hs) h0 halone
  intro p hp w input _ hacts
  refine hinv p hp w fun hidle => ?_
  rw [hidle] at hacts
  cases hacts

/-- Two workers one after the other: the second acquires the job of the first, which has
died, when its lease has expired. -/
theorem acts_only_as_last_owner_takeover :
    ∃ tr s, Run (step short_config) (Sys.initial 1 two_events 0) tr s ∧
      s.row.status = .completed ∧ s.owners = [1, 0] ∧
      ∀ p ∈ tr, ∀ w input, p.2 = .go w input → (p.1.workers w).phase.acts = true →
        p.1.LastOwner w := by
  have hrun : ∃ tr s, Run (step short_config) (Sys.initial 1 two_events 0) tr s ∧
      StepsMeet AcquiredAlone tr ∧ s.row.status = .completed ∧ s.owners = [1, 0] :=
    exists_run_meeting_of_exec (until_crash ++ .crash 0 :: after_crash)
      (execMeets_crash (w := 1) (fun _ _ => rfl) (by simp [until_crash]) (by simp [after_crash]))
      (by decide)
  obtain ⟨tr, s, hrun, halone, hstatus, howners⟩ := hrun
  exact ⟨tr, s, hrun, hstatus, howners, acts_only_as_last_owner hrun halone⟩

/-- Two workers do replay the job at the same time: worker `0` has the event in hand and
waits when the job is paused and resumed; worker `1` acquires it, and worker `0` sends the
event. -/
theorem stale_worker_sends :
    ∃ tr s, Run (step short_config) (Sys.initial 1 empty_world 0) tr s ∧
      (step short_config s (.go 0 {})).isSome = true ∧ (s.workers 0).phase.acts = true ∧
        s.owners = [1, 0] ∧ ¬ s.LastOwner 0 :=
  exists_run_of_exec
    [.produce 0 ⟨15, sampleRecord "1"⟩, .api_read 0 .start, .api_commit 0,
      .boot 0, .boot 1, .acquire 0,
      .go 0 {}, .go 0 {}, .go 0 {}, .go 0 {}, .go 0 {}, .go 0 {}, .go 0 {}, .go 0 {},
      .api_read 0 .pause, .api_commit 0, .api_read 0 .resume, .api_commit 0, .acquire 1]
    (by decide)

end

end WalStream.Job

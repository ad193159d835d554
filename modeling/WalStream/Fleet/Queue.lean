/-
The order in which the workers take the jobs.

`_acquire_job` picks one of the eligible jobs that no transaction has locked: the first by
`created_at`. `Fleet.step` lets a worker acquire any eligible job; here the choice is that of
the subquery. A job that is eligible is passed over for no job that was created later, so the
acquisitions it has to wait for are those of the older jobs.
-/
import WalStream.Fleet.System
import WalStream.Lib.Lists
import WalStream.Lib.Simulation
import Mathlib.Data.Finset.Max

set_option autoImplicit false

namespace WalStream.Fleet

open Lib Job

/-! ## The subquery

The order of acquisitions is in a subquery with `SKIP LOCKED`, of which `Fleet.System` only
keeps that some eligible job is taken. Here the choice is made as the statement makes it, and
the fleet is what remains when it is forgotten. -/

structure Queue where
  fleet : Sys
  /-- The jobs and their `created_at`, as they were inserted. -/
  created : List (JobId × Int)
  /-- The rows that transactions in flight have locked. -/
  locked : List JobId

namespace Queue

/-- The job is there, and meets the `eligible` condition. -/
def eligible (s : Queue) (j : JobId) : Bool := (s.fleet.rows j).any (Job.eligible s.fleet.clock)

/-- `WHERE … FOR UPDATE SKIP LOCKED`. -/
def candidates (s : Queue) : List (JobId × Int) :=
  s.created.filter fun p => s.eligible p.1 && !s.locked.contains p.1

/-- `ORDER BY created_at ASC LIMIT 1`. Which of two jobs of one instant is the first is for
the database to say. -/
def picks (s : Queue) (j : JobId) : Bool :=
  s.candidates.any fun p => p.1 = j && s.candidates.all fun q => p.2 ≤ q.2

end Queue

inductive QueueAction
  | create (j : JobId) (speed_factor : Rat) (created_at : Int)
  | acquire (w : Nat) (j : JobId) (lost : Bool)
  /-- A transaction locks the row of a job, and releases it. -/
  | lock (j : JobId)
  | unlock (j : JobId)
  /-- Any other step of the fleet. -/
  | other (a : Action)

/-- The two steps that have their own form here. -/
def Action.of_queue : Action → Bool
  | .create _ _ => true
  | .acquire _ _ _ => true
  | _ => false

def Queue.initial (clock : Nat) : Queue :=
  { fleet := Sys.initial clock,
    created := [],
    locked := [] }

def Queue.step (cfg : Config) (s : Queue) : QueueAction → Option Queue
  | .create j speed_factor created_at =>
      if j ∈ s.created.map Prod.fst then none
      else
        (Fleet.step cfg s.fleet (.create j speed_factor)).map fun fleet =>
          { s with fleet := fleet, created := s.created ++ [(j, created_at)] }
  | .acquire w j lost =>
      if s.picks j then
        (Fleet.step cfg s.fleet (.acquire w j lost)).map fun fleet => { s with fleet := fleet }
      else none
  | .lock j => some { s with locked := j :: s.locked }
  | .unlock j => some { s with locked := s.locked.erase j }
  | .other a =>
      if a.of_queue then none
      else (Fleet.step cfg s.fleet a).map fun fleet => { s with fleet := fleet }

/-! ## Runs of the fleet -/

/-- The acquisitions. -/
def QueueAction.acquired (_ : Queue) : QueueAction → List (Nat × JobId)
  | .acquire w j _ => [(w, j)]
  | _ => []

def Action.acquired (_ : Sys) : Action → List (Nat × JobId)
  | .acquire w j _ => [(w, j)]
  | _ => []

section

variable {cfg : Config} {s t : Queue} {a : QueueAction} {i j : JobId} {created_at : Int}

/-- A step is one of the fleet, or changes nothing there. -/
theorem Queue.fleet_step (h : Queue.step cfg s a = some t) :
    (t.fleet = s.fleet ∧ a.acquired s = []) ∨
      ∃ b, Fleet.step cfg s.fleet b = some t.fleet ∧ b.acquired s.fleet = a.acquired s := by
  cases a with
  | create j speed_factor created_at =>
      simp only [Queue.step] at h
      split at h
      · cases h
      · obtain ⟨fleet, hfleet, rfl⟩ := Option.map_eq_some_iff.mp h
        exact .inr ⟨_, hfleet, rfl⟩
  | acquire w j lost =>
      simp only [Queue.step] at h
      split at h
      · obtain ⟨fleet, hfleet, rfl⟩ := Option.map_eq_some_iff.mp h
        exact .inr ⟨_, hfleet, rfl⟩
      · cases h
  | lock j => cases h; exact .inl ⟨rfl, rfl⟩
  | unlock j => cases h; exact .inl ⟨rfl, rfl⟩
  | other a =>
      simp only [Queue.step] at h
      split at h
      · cases h
      · rename_i hother
        obtain ⟨fleet, hfleet, rfl⟩ := Option.map_eq_some_iff.mp h
        refine .inr ⟨a, hfleet, ?_⟩
        cases a <;> first | rfl | exact absurd rfl hother

/-- **The queue is the fleet with a choice**: what is acquired along a run is acquired along a
run of the fleet. -/
theorem queue_simulates (cfg : Config) :
    Simulates (Queue.step cfg) (Fleet.step cfg) QueueAction.acquired Action.acquired
      (fun _ _ => True) fun s f => f = s.fleet := by
  rintro s a t _ rfl - hs
  rcases Queue.fleet_step hs with ⟨hsame, hnone⟩ | ⟨b, hb, hacquired⟩
  · exact ⟨[], s.fleet, Run.nil, hnone.symm, hsame.symm⟩
  · exact ⟨_, t.fleet, Run.cons Run.nil hb, by simpa using hacquired, rfl⟩

/-! ## One acquisition

What is locked is skipped, whatever its age; among the others the oldest is taken. A job that
was acquired is out of the way until its lease is over. -/

theorem Queue.mem_candidates {p : JobId × Int} :
    p ∈ s.candidates ↔ p ∈ s.created ∧ s.eligible p.1 = true ∧ p.1 ∉ s.locked := by
  simp [Queue.candidates]

/-- **No overtaking.** Of the eligible jobs that are not locked, the job acquired was created
first. -/
theorem Queue.picks_oldest (h : s.picks j = true) (hi : (i, created_at) ∈ s.created)
    (heligible : s.eligible i = true) (hlocked : i ∉ s.locked) :
    ∃ first, (j, first) ∈ s.created ∧ s.eligible j = true ∧ first ≤ created_at := by
  obtain ⟨⟨j', first⟩, hmem, hp⟩ := List.any_eq_true.mp h
  rw [Bool.and_eq_true, decide_eq_true_eq] at hp
  obtain ⟨rfl, hall⟩ := hp
  obtain ⟨hcreated, helig, -⟩ := mem_candidates.mp hmem
  have hle := List.all_eq_true.mp hall _ (mem_candidates.mpr ⟨hi, heligible, hlocked⟩)
  exact ⟨first, hcreated, helig, of_decide_eq_true hle⟩

/-- An acquired job is not eligible before its lease is over. -/
theorem Queue.acquired_not_eligible {w : Nat} {lost : Bool}
    (h : Queue.step cfg s (.acquire w j lost) = some t) : t.eligible j = false := by
  simp only [Queue.step] at h
  split at h
  · obtain ⟨fleet, hfleet, rfl⟩ := Option.map_eq_some_iff.mp h
    have hrow : ∃ row, fleet.rows j = some (acquired_row cfg s.fleet.clock w row) ∧
        fleet.clock = s.fleet.clock := by
      cases step_took hfleet with
      | acquire _ _ row hidle hrow => exact ⟨row, Function.update_self .., rfl⟩
      | acquire_lost _ _ row hidle hrow => exact ⟨row, Function.update_self .., rfl⟩
    obtain ⟨row, hrow, hclock⟩ := hrow
    simp [Queue.eligible, hrow, hclock, Job.eligible, acquired_row]
  · cases h

/-- A job is not eligible when it is created, and it was not there before. -/
theorem Queue.created_step (h : Queue.step cfg s a = some t) :
    t.created = s.created ∨ ∃ j created_at, t.created = s.created ++ [(j, created_at)] ∧
      s.eligible j = false ∧ t.eligible j = false := by
  cases a with
  | create j speed_factor created_at =>
      simp only [Queue.step] at h
      split at h
      · cases h
      · obtain ⟨fleet, hfleet, rfl⟩ := Option.map_eq_some_iff.mp h
        refine .inr ⟨j, created_at, rfl, ?_⟩
        cases step_took hfleet with
        | create _ _ hrow => simp [Queue.eligible, hrow, Sys.set_row, Job.eligible, ReplayJob.created]
  | acquire w j lost =>
      simp only [Queue.step] at h
      split at h
      · obtain ⟨fleet, -, rfl⟩ := Option.map_eq_some_iff.mp h
        exact .inl rfl
      · cases h
  | lock j => cases h; exact .inl rfl
  | unlock j => cases h; exact .inl rfl
  | other a =>
      simp only [Queue.step] at h
      split at h
      · cases h
      · obtain ⟨fleet, -, rfl⟩ := Option.map_eq_some_iff.mp h
        exact .inl rfl

/-- **A worker that asks gets a job**, as long as one waits. -/
theorem Queue.acquires {w : Nat} {p : JobId × Int} (hp : p ∈ s.candidates)
    (hidle : (s.fleet.procs w).main = .idle) (hrunning : (s.fleet.procs w).running = true) :
    ∃ j t, Queue.step cfg s (.acquire w j false) = some t := by
  obtain ⟨first, hfirst, hleast⟩ := s.candidates.toFinset.exists_min_image Prod.snd
    ⟨p, List.mem_toFinset.mpr hp⟩
  have hpicks : s.picks first.1 = true := by
    refine List.any_eq_true.mpr ⟨first, List.mem_toFinset.mp hfirst, ?_⟩
    rw [Bool.and_eq_true, decide_eq_true_eq]
    exact ⟨rfl, List.all_eq_true.mpr fun q hq =>
      decide_eq_true (hleast q (List.mem_toFinset.mpr hq))⟩
  obtain ⟨-, heligible, -⟩ := mem_candidates.mp (List.mem_toFinset.mp hfirst)
  obtain ⟨row, hrow, hrowel⟩ := (Option.any_eq_true ..).mp heligible
  have hfleet : ∃ fleet, Fleet.step cfg s.fleet (.acquire w first.1 false) = some fleet := by
    simp only [Fleet.step, hidle, hrow, hrunning, hrowel, Bool.and_self, if_true]
    exact ⟨_, rfl⟩
  obtain ⟨fleet, hfleet⟩ := hfleet
  refine ⟨first.1, { s with fleet := fleet }, ?_⟩
  simp only [Queue.step, hpicks, if_true, hfleet, Option.map_some]

/-! ## Waiting

A job waits for those created before it, and each acquisition of another job takes one of them
away, as it is not eligible again while its lease runs. Jobs that become eligible again, or come
late with an early time, are counted. -/

/-- The job of the pair comes before job `i`, created at `created_at`. -/
def Queue.ahead (i : JobId) (created_at : Int) (s : Queue) (p : JobId × Int) : Bool :=
  p.1 ≠ i && p.2 ≤ created_at && s.eligible p.1

/-- How many jobs the step puts ahead of it. -/
def Queue.joining (cfg : Config) (i : JobId) (created_at : Int) (s : Queue) (a : QueueAction) : Nat :=
  match Queue.step cfg s a with
  | some t => t.created.countP fun p => t.ahead i created_at p && !s.ahead i created_at p
  | none => 0

def QueueAction.is_acquisition : QueueAction → Bool
  | .acquire _ _ _ => true
  | _ => false

/-- Whenever another job is acquired, job `i` is eligible and not locked. -/
def Waits (i : JobId) (s : Queue) : QueueAction → Prop
  | .acquire _ j _ => j ≠ i ∧ s.eligible i = true ∧ i ∉ s.locked
  | _ => True

/-- The jobs of before the step, counted in the list of after it. -/
theorem Queue.countP_created (h : Queue.step cfg s a = some t) :
    t.created.countP (s.ahead i created_at) = s.created.countP (s.ahead i created_at) := by
  rcases created_step h with hsame | ⟨j, at_j, hcreated, hnot, -⟩
  · rw [hsame]
  · rw [hcreated, List.countP_append, List.countP_singleton]
    simp [Queue.ahead, hnot]

/-- **One step**: an acquisition takes one of the jobs ahead. -/
theorem Queue.ahead_step (hi : (i, created_at) ∈ s.created) (hwaits : Waits i s a)
    (h : Queue.step cfg s a = some t) :
    t.created.countP (t.ahead i created_at) + (if a.is_acquisition = true then 1 else 0)
      ≤ s.created.countP (s.ahead i created_at) + Queue.joining cfg i created_at s a := by
  -- those ahead afterwards are those ahead before, with the joining and without the leaving
  have hexchange := countP_exchange (s.ahead i created_at) (t.ahead i created_at) t.created
  rw [countP_created h] at hexchange
  have hjoining : Queue.joining cfg i created_at s a
      = t.created.countP fun p => t.ahead i created_at p && !s.ahead i created_at p := by
    simp only [Queue.joining, h]
  have hleft : (if a.is_acquisition = true then 1 else 0)
      ≤ t.created.countP fun p => s.ahead i created_at p && !t.ahead i created_at p := by
    split
    · rename_i hacquisition
      cases a with
      | acquire w j lost =>
          obtain ⟨hne, heligible, hlocked⟩ := hwaits
          have hpicks : s.picks j = true := by
            simp only [Queue.step] at h
            split at h
            · assumption
            · cases h
          -- the job acquired was ahead, as the oldest, and is so no more
          obtain ⟨first, hfirst, helig, hle⟩ := picks_oldest hpicks hi heligible hlocked
          have hmem : (j, first) ∈ t.created := by
            rcases created_step h with hsame | ⟨_, _, hcreated, -⟩
            · exact hsame ▸ hfirst
            · rw [hcreated]
              exact List.mem_append_left _ hfirst
          refine List.countP_pos_iff.mpr ⟨(j, first), hmem, ?_⟩
          simp [Queue.ahead, hne, hle, helig, acquired_not_eligible h]
      | _ => cases hacquisition
    · exact Nat.zero_le _
  omega

theorem Queue.created_kept (h : Queue.step cfg s a = some t) {p : JobId × Int}
    (hp : p ∈ s.created) : p ∈ t.created := by
  rcases created_step h with hsame | ⟨_, _, hcreated, -⟩
  · exact hsame ▸ hp
  · rw [hcreated]
    exact List.mem_append_left _ hp

/-- **Bounded waiting.** As long as job `i` is eligible and not locked whenever a worker
acquires another job, there are no more acquisitions than jobs created no later than it that
are eligible at the start or become eligible meanwhile. And a worker that asks while it waits
gets a job. -/
theorem waiting_bounded {tr : List (Queue × QueueAction)} (hi : (i, created_at) ∈ s.created)
    (hrun : Run (Queue.step cfg) s tr t) (hwaits : StepsMeet (Waits i) tr) :
    (tr.countP fun p => p.2.is_acquisition) ≤ s.created.countP (s.ahead i created_at)
        + total (Queue.joining cfg i created_at) tr ∧
      ∀ w, t.eligible i = true → i ∉ t.locked → (t.fleet.procs w).main = .idle →
        (t.fleet.procs w).running = true →
        ∃ j t', Queue.step cfg t (.acquire w j false) = some t' := by
  constructor
  · have hpotential := Run.potential (I := fun s => (i, created_at) ∈ s.created)
      (fun s => s.created.countP (s.ahead i created_at))
      (fun _ a => if a.is_acquisition = true then 1 else 0) (Queue.joining cfg i created_at)
      (fun s a t hs hC h => ⟨Queue.created_kept h hs, Queue.ahead_step hs hC h⟩) hi hrun hwaits
    rw [total_ite] at hpotential
    simp only [Bool.decide_eq_true] at hpotential
    omega
  · intro w heligible hlocked hidle hrunning
    have hmem : (i, created_at) ∈ t.created :=
      Run.invariant (I := fun s => (i, created_at) ∈ s.created) (C := Waits i)
        (fun _ _ _ hs _ h => Queue.created_kept h hs) hi hrun hwaits
    exact Queue.acquires (Queue.mem_candidates.mpr ⟨hmem, heligible, hlocked⟩) hidle hrunning

end

/-! ## Two jobs -/

/-- Two jobs are queued, the second of them created first. -/
def queueing_actions : List QueueAction :=
  [.create 0 1 7, .create 1 1 5, .other (.api_read 0 0 .start), .other (.api_commit 0),
    .other (.api_read 0 1 .start), .other (.api_commit 0), .other (.boot 0), .other (.boot 1)]

/-- The older one goes first, and the next worker that asks gets the other. -/
theorem waiting_bounded_two :
    ∃ s tr t, (0, 7) ∈ s.created ∧ Run (Queue.step short_config) s tr t ∧
      (tr.countP fun p => p.2.is_acquisition) = 1 ∧
      s.created.countP (s.ahead 0 7) + total (Queue.joining short_config 0 7) tr = 1 ∧
      (tr.countP fun p => p.2.is_acquisition)
        ≤ s.created.countP (s.ahead 0 7) + total (Queue.joining short_config 0 7) tr ∧
      ∃ j t', Queue.step short_config t (.acquire 1 j false) = some t' := by
  obtain ⟨s, t, hs, ht, hmem, hfirst, hacquired, hpaid, hsecond, hidle, hrunning⟩ : ∃ s t,
      exec (Queue.step short_config) (Queue.initial 0) queueing_actions = some s ∧
      exec (Queue.step short_config) s [.acquire 0 1 false] = some t ∧ (0, 7) ∈ s.created ∧
      (s.eligible 0 = true ∧ 0 ∉ s.locked) ∧
      ((trace (Queue.step short_config) s [.acquire 0 1 false]).countP
        fun p => p.2.is_acquisition) = 1 ∧
      s.created.countP (s.ahead 0 7) + total (Queue.joining short_config 0 7)
        (trace (Queue.step short_config) s [.acquire 0 1 false]) = 1 ∧
      (t.eligible 0 = true ∧ 0 ∉ t.locked) ∧ (t.fleet.procs 1).main = .idle ∧
      (t.fleet.procs 1).running = true :=
    ⟨_, _, rfl, rfl, by decide, by decide, by decide, by decide, by decide, rfl, rfl⟩
  have htrace : trace (Queue.step short_config) s [.acquire 0 1 false]
      = [(s, .acquire 0 1 false)] := by
    simp only [exec, Option.bind_eq_some_iff] at ht
    obtain ⟨u, hu, -⟩ := ht
    simp only [trace, hu, List.nil_append]
  have hsteps : StepsMeet (Waits 0) (trace (Queue.step short_config) s [.acquire 0 1 false]) := by
    rw [htrace, stepsMeet_cons]
    exact ⟨⟨by decide, hfirst⟩, stepsMeet_nil _⟩
  obtain ⟨hbound, hnext⟩ := waiting_bounded hmem (run_trace ht) hsteps
  exact ⟨s, _, t, hmem, run_trace ht, hacquired, hpaid, hbound,
    hnext 1 hsecond.1 hsecond.2 hidle hrunning⟩

end WalStream.Fleet

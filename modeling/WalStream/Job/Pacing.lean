/-
The pace of a replay: `_wait_for_virtual_time`.

Before each event the worker sleeps until the wall clock has moved as far from the start of
the replay as the event's commit time is from that of the first event, divided by the speed
factor. Nothing is remembered from one event to the next: the speed is the one of the job as
read after the event before, and an API request may have changed it meanwhile.

Times of the wall clock are in seconds, commit times in milliseconds; the arithmetic is exact.
-/
import WalStream.Job.Row
import Mathlib.Algebra.Order.Field.Basic
import Mathlib.Algebra.Order.Field.Rat
import Mathlib.Data.List.Chain
import Mathlib.Tactic.Linarith
import Mathlib.Tactic.FieldSimp
import Mathlib.Tactic.Ring

set_option autoImplicit false

namespace WalStream.Job

/-! ## The waits of a replay -/

/-- `target_real_time`. -/
def target_real_time (event_time_ms first_event_time : Int) (replay_start_real speed_factor : ℚ) :
    ℚ :=
  let original_elapsed_ms : ℚ := event_time_ms - first_event_time
  let replay_elapsed_ms := original_elapsed_ms / speed_factor
  replay_start_real + replay_elapsed_ms / 1000

/-- `_wait_for_virtual_time`: how long it sleeps, the wall clock being at `now`. -/
def wait_for_virtual_time (event_time_ms first_event_time : Int)
    (replay_start_real speed_factor now : ℚ) : ℚ :=
  let target := target_real_time event_time_ms first_event_time replay_start_real speed_factor
  if now < target then target - now else 0

/-- One turn of the loop of `_execute_job`: the job as last read, the event, and the wall
clock when it is about to wait. -/
structure Turn where
  job : ReplayJob
  event : ReplayEvent
  now : ℚ

/-- The waits of the turns of one execution, which began at `replay_start_real`. -/
def waits (replay_start_real : ℚ) (first_event_time : Option Int) : List Turn → List ℚ
  | [] => []
  | turn :: turns =>
      -- the first event is the reference
      let first := first_event_time.getD turn.event.commit_time_ms
      wait_for_virtual_time turn.event.commit_time_ms first replay_start_real
          turn.job.speed_factor turn.now
        :: waits replay_start_real (some first) turns

/-! ## One wait -/

variable {start now v : ℚ} {first ct ct' : Int} {turns : List Turn}

theorem wait_le_iff {bound : ℚ} (hbound : 0 ≤ bound) :
    wait_for_virtual_time ct first start v now ≤ bound ↔
      target_real_time ct first start v ≤ now + bound := by
  unfold wait_for_virtual_time
  dsimp only
  by_cases h : now < target_real_time ct first start v
  · rw [if_pos h]
    constructor
    · intro hle
      linarith
    · intro hle
      linarith
  · rw [if_neg h]
    exact iff_of_true hbound (by linarith)

/-- The target moves on with the commit time. -/
theorem target_sub (ct ct' first : Int) (start v : ℚ) :
    target_real_time ct' first start v
      = target_real_time ct first start v + ((ct' : ℚ) - ct) / v / 1000 := by
  unfold target_real_time
  ring

/-- The target of an event has been reached when the speed is the pace so far. -/
theorem target_le_iff (hv : 0 < v) :
    target_real_time ct first start v ≤ now ↔
      (ct : ℚ) - first ≤ v * (1000 * (now - start)) := by
  unfold target_real_time
  dsimp only
  have hdiv : ((ct : ℚ) - first) / v ≤ 1000 * (now - start) ↔
      (ct : ℚ) - first ≤ v * (1000 * (now - start)) := div_le_iff₀' hv
  rw [← hdiv]
  constructor
  · intro h
    linarith
  · intro h
    linarith

/-- **One wait follows the gap** exactly if the event before it is due by now. -/
theorem wait_le_gap_iff (hv : 0 < v) (hle : ct ≤ ct') :
    wait_for_virtual_time ct' first start v now ≤ ((ct' : ℚ) - ct) / v / 1000 ↔
      (ct : ℚ) - first ≤ v * (1000 * (now - start)) := by
  have hle' : (ct : ℚ) ≤ ct' := by exact_mod_cast hle
  have hgap : 0 ≤ ((ct' : ℚ) - ct) / v / 1000 :=
    div_nonneg (div_nonneg (sub_nonneg.mpr hle') hv.le) (by norm_num)
  rw [wait_le_iff hgap, target_sub ct ct', add_le_add_iff_right, target_le_iff hv]

/-! ## The waits of a run -/

/-- After the first event, every wait refers to it. -/
theorem getElem?_waits_some (start : ℚ) (first : Int) (turns : List Turn) (i : Nat) :
    (waits start (some first) turns)[i]? = turns[i]?.map fun turn =>
      wait_for_virtual_time turn.event.commit_time_ms first start turn.job.speed_factor turn.now := by
  induction turns generalizing i with
  | nil => rfl
  | cons turn turns ih =>
      cases i with
      | zero => rfl
      | succ i => exact ih i

theorem getElem?_waits {first_turn : Turn} (h : turns[0]? = some first_turn) (start : ℚ) (i : Nat) :
    (waits start none turns)[i]? = turns[i]?.map fun turn =>
      wait_for_virtual_time turn.event.commit_time_ms first_turn.event.commit_time_ms start
        turn.job.speed_factor turn.now := by
  cases turns with
  | nil => cases h
  | cons turn turns =>
      cases h
      cases i with
      | zero => rfl
      | succ i => exact getElem?_waits_some start _ turns i

/-- The commit times do not decrease. -/
def InCommitOrder (turns : List Turn) : Prop :=
  turns.IsChain fun a b => a.event.commit_time_ms ≤ b.event.commit_time_ms

instance (turns : List Turn) : Decidable (InCommitOrder turns) :=
  inferInstanceAs (Decidable (turns.IsChain _))

/-- **Exactly when the pacing follows the gap**: the speed in force at an event, over the
wall time that has passed since the start, reaches the commit time of the event before it. In
other words the speed is at least the pace at which the replay has got there. -/
theorem wait_follows_gap_iff (start : ℚ) (horder : InCommitOrder turns)
    (hspeed : ∀ turn ∈ turns, 0 < turn.job.speed_factor) {i : Nat} {first_turn before turn : Turn}
    (h0 : turns[0]? = some first_turn) (hbefore : turns[i]? = some before)
    (hturn : turns[i + 1]? = some turn) :
    ∃ wait, (waits start none turns)[i + 1]? = some wait ∧
      (wait ≤ ((turn.event.commit_time_ms : ℚ) - before.event.commit_time_ms)
            / turn.job.speed_factor / 1000 ↔
        (before.event.commit_time_ms : ℚ) - first_turn.event.commit_time_ms
          ≤ turn.job.speed_factor * (1000 * (turn.now - start))) := by
  refine ⟨_, by rw [getElem?_waits h0, hturn, Option.map_some], ?_⟩
  obtain ⟨hi, rfl⟩ := List.getElem?_eq_some_iff.mp hbefore
  obtain ⟨hi1, rfl⟩ := List.getElem?_eq_some_iff.mp hturn
  exact wait_le_gap_iff (hspeed _ (List.getElem_mem hi1)) (List.isChain_iff_getElem.mp horder i hi1)

/-- The clock is nowhere before the start, and moves on by every sleep at least. -/
structure Slept (start : ℚ) (turns : List Turn) : Prop where
  started : ∀ turn ∈ turns, start ≤ turn.now
  slept : ∀ i turn next wait, turns[i]? = some turn → turns[i + 1]? = some next →
    (waits start none turns)[i]? = some wait → turn.now + wait ≤ next.now

/-- The pacing follows the gap as long as the speed is never lowered. -/
theorem wait_follows_gap_of_speeds (start : ℚ) (horder : InCommitOrder turns)
    (hspeed : ∀ turn ∈ turns, 0 < turn.job.speed_factor) (hslept : Slept start turns)
    {i : Nat} {first_turn before turn : Turn} {wait : ℚ}
    (h0 : turns[0]? = some first_turn) (hbefore : turns[i]? = some before)
    (hturn : turns[i + 1]? = some turn)
    (hfaster : before.job.speed_factor ≤ turn.job.speed_factor)
    (hwait : (waits start none turns)[i + 1]? = some wait) :
    wait ≤ ((turn.event.commit_time_ms : ℚ) - before.event.commit_time_ms)
      / turn.job.speed_factor / 1000 := by
  obtain ⟨wait', hwait', hiff⟩ :=
    wait_follows_gap_iff start horder hspeed h0 hbefore hturn
  rw [hwait] at hwait'
  cases hwait'
  rw [hiff]
  have hfirst := getElem?_waits h0 start i
  rw [hbefore, Option.map_some] at hfirst
  have hnext := hslept.slept i before turn _ hbefore hturn hfirst
  -- after its own sleep the target of the event before has been reached
  have htarget : target_real_time before.event.commit_time_ms first_turn.event.commit_time_ms start
      before.job.speed_factor ≤ turn.now := by
    refine le_trans ?_ hnext
    have hnonneg : 0 ≤ wait_for_virtual_time before.event.commit_time_ms
        first_turn.event.commit_time_ms start before.job.speed_factor before.now := by
      unfold wait_for_virtual_time
      dsimp only
      split
      · linarith
      · exact le_refl 0
    exact (wait_le_iff hnonneg).mp (le_refl _)
  have hreached := (target_le_iff (hspeed _ (List.mem_of_getElem? hbefore))).mp htarget
  have hstart := hslept.started turn (List.mem_of_getElem? hturn)
  have hmul : before.job.speed_factor * (1000 * (turn.now - start))
      ≤ turn.job.speed_factor * (1000 * (turn.now - start)) :=
    mul_le_mul_of_nonneg_right hfaster (by linarith)
  linarith

/-- An event committed at `ms`, with a speed factor in force and a wall clock. -/
def sampleTurn (ms : Int) (speed_factor now : ℚ) : Turn :=
  { job := .created speed_factor,
    event := { message_id := .kafka 0 0, payload := { sampleRecord "1" with commit_time := ms } },
    now := now }

/-- A job that is slowed down to a hundredth before its last event. -/
def slowedTurns : List Turn :=
  [sampleTurn 0 100 0, sampleTurn 100000 100 0, sampleTurn 101000 1 1]

theorem slowedTurns_inCommitOrder : InCommitOrder slowedTurns := by decide +kernel

theorem slowedTurns_speed : ∀ turn ∈ slowedTurns, 0 < turn.job.speed_factor := by decide +kernel

/-- The wait before the last event, when the speed has changed. -/
theorem wait_follows_gap_iff_slowed : ∃ wait, (waits 0 none slowedTurns)[1 + 1]? = some wait ∧
    (wait ≤ (((sampleTurn 101000 1 1).event.commit_time_ms : ℚ)
          - (sampleTurn 100000 100 0).event.commit_time_ms)
          / (sampleTurn 101000 1 1).job.speed_factor / 1000 ↔
      ((sampleTurn 100000 100 0).event.commit_time_ms : ℚ)
          - (sampleTurn 0 100 0).event.commit_time_ms
        ≤ (sampleTurn 101000 1 1).job.speed_factor
          * (1000 * ((sampleTurn 101000 1 1).now - 0))) :=
  wait_follows_gap_iff 0 slowedTurns_inCommitOrder slowedTurns_speed rfl rfl rfl

/-- The last event comes a second after the one before it, and is waited for 100 seconds. -/
theorem slowed_job_oversleeps : ¬ ∀ (turns : List Turn) (start : ℚ), InCommitOrder turns →
    (∀ turn ∈ turns, 0 < turn.job.speed_factor) →
    turns.IsChain (fun a b => a.now ≤ b.now) →
    ∀ (i : Nat) (before turn : Turn) (wait : ℚ), turns[i]? = some before →
      turns[i + 1]? = some turn → (waits start none turns)[i + 1]? = some wait →
      wait ≤ ((turn.event.commit_time_ms : ℚ) - before.event.commit_time_ms)
        / turn.job.speed_factor / 1000 := by
  intro h
  have hclock : slowedTurns.IsChain (fun a b => a.now ≤ b.now) := by decide +kernel
  have hwait : (waits 0 none slowedTurns)[1 + 1]? = some 100 := by decide +kernel
  have hle := h slowedTurns 0 slowedTurns_inCommitOrder slowedTurns_speed hclock 1
    (sampleTurn 100000 100 0) (sampleTurn 101000 1 1) 100 rfl rfl hwait
  exact absurd hle (by decide +kernel)

end WalStream.Job

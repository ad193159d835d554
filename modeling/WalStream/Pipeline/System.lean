/-
One job from the worker to the target: the worker, the replayer and the database together.

The worker takes the events of the stream one after the other. For each it calls
`ReplayEvent`, at most `max_event_retries + 1` times, and goes on to the next one when a call
is answered with success or duplicate. A call that times out at the worker is answered by the
next attempt; its handler knows nothing of it and goes on, at its own pace, beside those of
the later calls.

`executed` records which event's statement took effect when, with the values the column
defaults came to; nothing reads it.
-/
import WalStream.Job.Worker
import WalStream.Replayer.Server
import WalStream.Replayer.Target

set_option autoImplicit false

namespace WalStream.Pipeline

open Lib Replayer

/-! ## The worker's part -/

/-- What an attempt leads to, by the two values `_replay_event` returns. -/
def after_attempt (max_event_retries attempt : Nat) (success was_dup : Bool) : Job.Stage :=
  if success || was_dup then .acked was_dup
  else if attempt < max_event_retries + 1 then .ready (attempt + 1)
  else .exhausted

/-- The worker goes on only after a success or a duplicate. -/
theorem answered_of_acked {max_event_retries attempt : Nat} {success was_dup was_dup' : Bool}
    (h : after_attempt max_event_retries attempt success was_dup = .acked was_dup') :
    (success || was_dup) = true := by
  unfold after_attempt at h
  split at h
  · assumption
  · split at h <;> cases h

/-- It is what `JobWorker` does after an attempt. -/
theorem after_attempt_go {cfg : Job.Config} {now : Nat} {row : Job.ReplayJob}
    {world : Source.World} {wk : Job.Worker} {input : Job.Input} {m : Job.Move}
    {job : Job.ReplayJob} {stream : Source.Stream} {event : WalStream.ReplayEvent} {attempt : Nat}
    (hph : wk.phase = .in_hand job stream event (.awaiting attempt))
    (hm : wk.go cfg now row world input = some m) :
    m.worker.phase = .in_hand job stream event
      (after_attempt cfg.max_event_retries attempt input.success input.was_duplicate) := by
  simp only [Job.Worker.go, hph] at hm
  unfold after_attempt
  split at hm
  · rename_i hanswer
    cases hm
    rw [if_pos hanswer]
    rfl
  · rename_i hanswer
    rw [if_neg hanswer]
    split at hm
    · rename_i hattempt
      cases hm
      rw [if_pos hattempt]
      rfl
    · rename_i hattempt
      cases hm
      rw [if_neg hattempt]
      rfl

/-! ## States and actions -/

section

variable {τ : Type} {ι : τ → Type} {V : (n : τ) → ι n → Type}

structure Sys (tgt : Target V) where
  server : Server
  db : tgt.Database
  /-- How many events the checkpoint has passed: the number of the one in hand. -/
  position : Nat
  stage : Job.Stage
  /-- The call of the attempt under way. -/
  call : Option Nat
  status : Job.JobStatus
  /-- The event each call was sent for. -/
  sent : Nat → Option Nat
  /-- The statements that took effect, newest first. -/
  executed : List (Nat × Defaults V)

/-- A job that starts on its first event, before a replayer that has no calls. -/
def Sys.initial (tgt : Target V) (store : DedupStore) (clock : Int) (db : tgt.Database) : Sys tgt :=
  { server := Server.initial store clock,
    db := db,
    position := 0,
    stage := .ready 1,
    call := none,
    status := .running,
    sent := fun _ => none,
    executed := [] }

end

/-- The settings of the replayer and of the worker. -/
structure Config where
  md5_16 : String → String
  ttl : Int
  max_event_retries : Nat

/-- The actions; `V` is there for the defaults an execution meets. -/
inductive Action {τ : Type} {ι : τ → Type} (V : (n : τ) → ι n → Type)
  /-- The worker calls `ReplayEvent`, as call `i`. -/
  | send (i : Nat)
  /-- The call's response arrives; or `grpc.RpcError` is raised, at any time. -/
  | answer
  | timeout
  /-- The progress of the event is committed. -/
  | advance
  /-- `_complete_job`, after the last event; `_fail_job`, after the last attempt. -/
  | complete
  | fail
  /-- The worker's process dies, and the job is taken up again at the checkpoint. -/
  | restart
  /-- The statement of call `i` runs. The connection may break: then `apply` returns `False`,
  whether the statement was carried out or not. -/
  | apply (i : Nat) (dflt : Defaults V) (broken : Option Bool)
  /-- Call `i` ends without an answer; what it has sent to the database may be carried out. -/
  | lose (i : Nat) (dflt : Defaults V) (carried_out : Bool)
  /-- Another step of the replayer. -/
  | server (a : Replayer.Action)

/-- The steps of the replayer that touch neither its client nor the target. -/
def internal : Replayer.Action → Bool
  | .receive _ _ => false
  | .apply _ (.ok _) => false
  | .lose _ _ => false
  | _ => true

/-! ## Steps -/

variable {τ : Type} [DecidableEq τ] {ι : τ → Type} [∀ n, DecidableEq (ι n)] [∀ n, Fintype (ι n)]
variable {V : (n : τ) → ι n → Type} [∀ n i, DecidableEq (V n i)]

/-- The statement of event `k` runs. -/
def Sys.execute {tgt : Target V} (s : Sys tgt) (k : Nat) (event : ChangeRecord)
    (dflt : Defaults V) : Sys tgt × Bool :=
  match tgt.apply dflt s.db event with
  | (db, true) => ({ s with db := db, executed := (k, dflt) :: s.executed }, true)
  | (_, false) => (s, false)

/-- The statement of an event concerns the database alone. -/
theorem Sys.execute_frame {tgt : Target V} (s : Sys tgt) (k : Nat) (event : ChangeRecord) (dflt : Defaults V) :
    (s.execute k event dflt).1.server = s.server ∧ (s.execute k event dflt).1.sent = s.sent := by
  unfold Sys.execute
  split <;> exact ⟨rfl, rfl⟩

def step (cfg : Config) (tgt : Target V) (events : List ChangeRecord) (s : Sys tgt) :
    Action V → Option (Sys tgt)
  | .send i =>
      match s.status, s.stage, events[s.position]? with
      | .running, .ready attempt, some event =>
          (Replayer.step cfg.md5_16 cfg.ttl s.server (.receive i ⟨event, ""⟩)).map fun server =>
            { s with
              server := server,
              stage := .awaiting attempt,
              call := some i,
              sent := Function.update s.sent i (some s.position) }
      | _, _, _ => none
  | .answer =>
      match s.status, s.stage, s.call.bind s.server.calls with
      | .running, .awaiting attempt, some call =>
          match call.phase with
          | .answered response =>
              some { s with
                stage := after_attempt cfg.max_event_retries attempt response.success
                  response.was_duplicate,
                call := none }
          | _ => none
      | _, _, _ => none
  | .timeout =>
      match s.status, s.stage with
      | .running, .awaiting attempt =>
          some { s with
            stage := after_attempt cfg.max_event_retries attempt false false, call := none }
      | _, _ => none
  | .advance =>
      match s.status, s.stage with
      | .running, .acked _ =>
          some { s with position := s.position + 1, stage := .ready 1, call := none }
      | _, _ => none
  | .complete =>
      match s.status, events[s.position]? with
      | .running, none => some { s with status := .completed }
      | _, _ => none
  | .fail =>
      match s.status, s.stage with
      | .running, .exhausted => some { s with status := .failed }
      | _, _ => none
  | .restart =>
      match s.status with
      | .running => some { s with stage := .ready 1, call := none }
      | _ => none
  | .apply i dflt broken =>
      match s.server.calls i, s.sent i with
      | some call, some k =>
          let (s', ok) := s.execute k call.event dflt
          match broken with
          | none =>
              (Replayer.step cfg.md5_16 cfg.ttl s.server (.apply i (.ok ok))).map fun server =>
                { s' with server := server }
          | some carried_out =>
              (Replayer.step cfg.md5_16 cfg.ttl s.server (.apply i (.ok false))).map fun server =>
                { if carried_out then s' else s with server := server }
      | _, _ => none
  | .lose i dflt carried_out =>
      match s.server.calls i, s.sent i with
      | some call, some k =>
          (Replayer.step cfg.md5_16 cfg.ttl s.server (.lose i carried_out)).map fun server =>
            { if carried_out && call.phase == .applying then (s.execute k call.event dflt).1
              else s with server := server }
      | _, _ => none
  | .server a =>
      if internal a then
        (Replayer.step cfg.md5_16 cfg.ttl s.server a).map fun server => { s with server := server }
      else none

end WalStream.Pipeline

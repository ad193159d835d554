/-
Pause and cancel.

A worker looks at the status of the job once for every event, before it sends it, and stops
when it finds `PAUSED` or `CANCELLED`. The event it is past that check with is finished. What
the check does not react to is `COMPLETED` and `FAILED`, which another worker may write over
the `PAUSED` of the API at any time: then the next event is sent, and so on to the end of the
window.
-/
import WalStream.Job.Lifecycle
import WalStream.Job.Ownership

set_option autoImplicit false

namespace WalStream.Job

open Lib Source

/-! ## The status a request sets

A pause, a cancel and a PATCH come to one thing here: a transition that the state machine
accepts, from what was read to a target. -/

/-- The status a request asks for. -/
def ApiOp.target : ApiOp → Option JobStatus
  | .start => some .queued
  | .pause => some .paused
  | .resume => some .queued
  | .cancel => some .cancelled
  | .update target_status _ => target_status

/-- A pause, a cancel, or a PATCH to `PAUSED` or `CANCELLED`. -/
def ApiOp.stops (op : ApiOp) : Prop := op.target = some .paused ∨ op.target = some .cancelled

section

variable {now : Nat} {base new row : ReplayJob}

/-- An accepted transition sets its target, on a job that had another status. -/
theorem transition_status_status {target : JobStatus}
    (h : transition_status now target base = .ok new) :
    new.status = target ∧ base.status ≠ target := by
  unfold transition_status at h
  split at h
  · cases h
  · rename_i hvalid
    rw [not_not, valid_transition_iff] at hvalid
    have hne : base.status ≠ target := by
      rintro rfl
      cases hb : base.status <;> simp [hb, JobStatus.is_terminal] at hvalid
    simp only [Except.ok.injEq] at h
    subst h
    refine ⟨?_, hne⟩
    split <;> split <;> rfl

/-- An accepted request sets the status it asks for, on a job that had another one. -/
theorem ApiOp.apply_status {op : ApiOp} (h : op.apply now base = .ok new) :
    new.status = op.target.getD base.status ∧
      ∀ target, op.target = some target → base.status ≠ target := by
  cases op with
  | start | pause | resume | cancel =>
      simp only [ApiOp.apply, start_job, pause_job, resume_job, cancel_job] at h
      split at h
      · cases h
      · rename_i hs
        cases h
        refine ⟨rfl, ?_⟩
        rintro _ ⟨⟩ hq
        simp [hq, JobStatus.is_terminal] at hs
  | update target_status speed_factor =>
      obtain ⟨job, speed, rfl, ⟨rfl, rfl⟩ | ⟨target, rfl, hjob⟩⟩ := update_job_eq h
      · exact ⟨rfl, fun target ht => by cases ht⟩
      · obtain ⟨hstatus, hne⟩ := transition_status_status hjob
        refine ⟨hstatus, ?_⟩
        rintro _ ⟨⟩
        exact hne

end

section

variable {cfg : Config} {s t : Sys} {a : Action}

/-- The status after the commit of a request. -/
theorem api_commit_status (tx : ApiTx) (row : ReplayJob) :
    (flush tx.base tx.new row).status = tx.op.target.getD row.status := by
  obtain ⟨hstatus, hne⟩ := ApiOp.apply_status tx.accepted
  simp only [flush, hstatus]
  cases htarget : tx.op.target with
  | none => simp
  | some target => exact written_of_ne _ fun heq => hne target htarget heq.symm

/-- What an accepted request may ask for. -/
theorem api_target_cases (tx : ApiTx) {target : JobStatus} (h : tx.op.target = some target) :
    target = .queued ∨ target = .paused ∨ target = .cancelled := by
  obtain ⟨hstatus, hne⟩ := ApiOp.apply_status tx.accepted
  rw [h, Option.getD_some] at hstatus
  have htarget := (ApiOp.apply_spec tx.accepted).2.target
    (by rw [hstatus]; exact (hne target h).symm)
  rwa [hstatus] at htarget

/-! ## No acquisition

After the commit the job is not eligible. It stays so unless a request queues it, which one that
has read an older row may still do. -/

/-- The job is not eligible, and no request in flight will make it so. A request that has read
an older row can still commit, so it is not enough to look at the row. -/
structure Halted (s : Sys) : Prop where
  not_queued : s.row.status ≠ .queued
  not_running : s.row.status ≠ .running
  requests : ∀ i tx, s.api i = some tx → tx.op.target ≠ some .queued

/-- No request asks to queue the job. -/
def NoQueueing (_ : Sys) : Action → Prop
  | .api_read _ op => op.target ≠ some .queued
  | _ => True

/-- A job that is halted is not acquired, at whatever time. -/
theorem Halted.not_eligible (h : Halted s) (now : Nat) : eligible now s.row = false := by
  unfold eligible
  split
  · rename_i hs _
    exact absurd hs h.not_queued
  · rename_i hs _
    exact absurd hs h.not_queued
  · rename_i hs _
    exact absurd hs h.not_running
  · rfl

/-- A step changes the status to the target of a commit, if it changes it at all. -/
theorem Halted.status_cases (h : Halted s) (hs : step cfg s a = some t) :
    t.row.status = s.row.status ∨
    (∃ i tx target, s.api i = some tx ∧ tx.op.target = some target ∧ t.row.status = target) ∨
    ∃ v input base tx target, a = .go v input ∧ (s.workers v).phase = .writing base tx ∧
      tx.target = some target ∧ t.row.status = target := by
  rcases row_cases hs with hrow | ⟨i, tx, -, htx, hrow⟩ | ⟨v, input, base, tx, ha, hph, hrow⟩ |
    ⟨v, -, helig, -⟩ | ⟨v, -, hrow⟩
  · exact Or.inl (by rw [hrow])
  · rw [hrow, api_commit_status]
    cases htarget : tx.op.target with
    | none => exact Or.inl rfl
    | some target => exact Or.inr (Or.inl ⟨i, tx, target, htx, htarget, rfl⟩)
  · rw [hrow]
    simp only [flush, tx.body_status]
    cases htarget : tx.target with
    | none => exact Or.inl (by rw [Option.getD_none, written_self])
    | some target =>
        rw [Option.getD_some]
        rcases written_cases base.status target s.row.status with hw | hw
        · exact Or.inr (Or.inr ⟨v, input, base, tx, target, ha, hph, htarget, hw⟩)
        · exact Or.inl hw
  · rw [h.not_eligible] at helig
    cases helig
  · refine Or.inl ?_
    rw [hrow, renewed_row]
    split <;> rfl

/-- Halted is for good while no request queues the job. What the workers write over the status
is `COMPLETED`, `FAILED` or `PAUSED`, and none of these is eligible. -/
theorem Halted.step (h : Halted s) (hreq : NoQueueing s a) (hs : Job.step cfg s a = some t) :
    Halted t := by
  have hapi : ∀ i tx, t.api i = some tx → tx.op.target ≠ some .queued := by
    intro i tx htx
    rcases api_cases hs htx with htx | ⟨rfl, -, -⟩
    · exact h.requests i tx htx
    · exact hreq
  have hstatus : t.row.status ≠ .queued ∧ t.row.status ≠ .running := by
    rcases h.status_cases hs with hsame | ⟨i, tx, target, htx, htarget, ht⟩ |
      ⟨v, input, base, tx, target, -, -, htarget, ht⟩
    · rw [hsame]
      exact ⟨h.not_queued, h.not_running⟩
    · rw [ht]
      rcases api_target_cases tx htarget with rfl | rfl | rfl
      · exact absurd htarget (h.requests i tx htx)
      · exact ⟨by decide, by decide⟩
      · exact ⟨by decide, by decide⟩
    · rw [ht]
      rcases WorkerTx.target_cases htarget with rfl | rfl | rfl <;> exact ⟨by decide, by decide⟩
  exact ⟨hstatus.1, hstatus.2, hapi⟩

/-! ## The status check

Between two events a worker reads the status. It finds the stop as long as nobody has written
another status over it, and the only ones to do so are workers that leave the job by it. -/

/-- The step is not the commit of `COMPLETED` or `FAILED` by a worker while another one is
executing the job. -/
def EndsAlone (s : Sys) : Action → Prop
  | .go v _ => ∀ base tx target, (s.workers v).phase = .writing base tx →
      tx.target = some target → target ≠ .paused → ∀ u, u ≠ v → (s.workers u).phase = .idle
  | _ => True

/-- Every worker that executes the job will find out: the row is `PAUSED` or `CANCELLED`, which
the check reacts to, or all workers are idle and there is none. -/
def Visible (s : Sys) : Prop :=
  s.row.status = .paused ∨ s.row.status = .cancelled ∨ ∀ v, (s.workers v).phase = .idle

/-- A worker that is idle stays so while nobody acquires the job. -/
theorem idle_of_step (h : Halted s) (hs : Job.step cfg s a = some t) {v : Nat}
    (hidle : (s.workers v).phase = .idle) : (t.workers v).phase = .idle := by
  rcases phase_cases hs v with hsame | hidle' | ⟨rfl, -, -⟩ | ⟨error, -, hraised⟩ |
    ⟨input, m, -, hm, -⟩
  · rw [hsame, hidle]
  · exact hidle'
  · cases step_took hs with
    | acquire _ _ helig =>
        rw [h.not_eligible] at helig
        cases helig
  · rw [hidle] at hraised
    cases hraised
  · simp only [Worker.go, hidle] at hm
    cases hm

/-- A worker that commits `COMPLETED`, `FAILED` or the checkpoint is idle afterwards. -/
theorem idle_of_target {v : Nat} {input : Input} {base : ReplayJob} {tx : WorkerTx}
    {target : JobStatus} (hph : (s.workers v).phase = .writing base tx)
    (htarget : tx.target = some target) (hs : Job.step cfg s (.go v input) = some t) :
    (t.workers v).phase = .idle := by
  simp only [Job.step, Worker.go, hph, Option.map_some, Option.some.injEq] at hs
  subst hs
  simp only [Sys.move, Function.update_self]
  cases tx with
  | checkpoint | complete | fail => rfl
  | setup | progress | event_failed => cases htarget

/-- **One step** keeps it. A worker that writes over the status is idle afterwards, and by the
condition nobody else is executing the job when it writes a status the check passes over. -/
theorem Visible.step (hvisible : Visible s) (h : Halted s) (hends : EndsAlone s a)
    (hs : Job.step cfg s a = some t) : Visible t := by
  have hidle : (∀ v, (s.workers v).phase = .idle) → Visible t := fun hidle =>
    Or.inr (Or.inr fun v => idle_of_step h hs (hidle v))
  rcases h.status_cases hs with hsame | ⟨i, tx, target, htx, htarget, ht⟩ |
    ⟨v, input, base, tx, target, rfl, hph, htarget, ht⟩
  · rcases hvisible with hv | hv | hv
    · exact Or.inl (hsame.trans hv)
    · exact Or.inr (Or.inl (hsame.trans hv))
    · exact hidle hv
  · rcases api_target_cases tx htarget with rfl | rfl | rfl
    · exact absurd htarget (h.requests i tx htx)
    · exact Or.inl ht
    · exact Or.inr (Or.inl ht)
  · by_cases hpaused : target = .paused
    · exact Or.inl (ht.trans hpaused)
    · -- the end of the job: this was the last worker to execute it
      refine Or.inr (Or.inr fun u => ?_)
      by_cases hu : u = v
      · subst hu
        exact idle_of_target hph htarget hs
      · exact idle_of_step h hs (hends base tx target hph htarget hpaused u hu)

/-- The event a worker has passed the check with and not yet completed. -/
def Phase.past_check : Phase → Option ReplayEvent
  | .in_hand _ _ event (.ready _) => some event
  | .in_hand _ _ event (.awaiting _) => some event
  | .in_hand _ _ event (.acked _) => some event
  | .in_hand _ _ event .exhausted => some event
  | .writing _ (.progress _ event _ _) => some event
  | _ => none

/-- While everybody finds out, no worker passes the check with another event. The one it has
passed it with before may still be sent and completed. -/
theorem past_check_of_step (hvisible : Visible s) (hs : Job.step cfg s a = some t) (v : Nat) :
    (t.workers v).phase.past_check = none ∨
      (t.workers v).phase.past_check = (s.workers v).phase.past_check := by
  refine phase_holds (Q := fun phase => phase.past_check = none ∨
    phase.past_check = (s.workers v).phase.past_check) (Or.inl rfl) (Or.inl rfl)
    (fun _ => Or.inl rfl) hs (Or.inr rfl) ?_
  rintro input m - hm -
  cases Worker.went hm with
  | may_send job stream event hph hpaused hcancelled =>
      rcases hvisible with h | h | h
      · exact absurd h hpaused
      · exact absurd h hcancelled
      · have hidle := h v
        rw [hph] at hidle
        cases hidle
  | committed base tx hph =>
      left
      cases tx with
      | setup source count =>
          simp only [Worker.after_commit]
          split <;> rfl
      | _ => rfl
  | sent job stream event attempt hph | answered job stream event attempt hph
  | retried job stream event attempt hph | gave_up job stream event attempt hph
  | records_event job stream event was_dup hph =>
      right
      rw [hph]
      rfl
  | _ => exact Or.inl rfl

/-! ## What a worker still does

One event is in hand when the stop commits, past the check. It may still be sent, in as many
attempts as the code makes, and recorded once. -/

/-- The step completes an event: worker `v` commits the event's progress. -/
def completes (v : Nat) (p : Sys × Action) : Bool :=
  match p.2, (p.1.workers v).phase with
  | .go w _, .writing _ (.progress _ _ _ _) => decide (w = v)
  | _, _ => false

/-- The step sends an event: worker `v` calls `ReplayEvent` with it. -/
def Sends (v : Nat) (event : ReplayEvent) (p : Sys × Action) : Prop :=
  ∃ input job stream attempt, p.2 = .go v input ∧
    (p.1.workers v).phase = .in_hand job stream event (.ready attempt)

/-- Completing an event, a worker was past the check with it, and is not any more. -/
theorem past_check_of_completes {v : Nat} (hs : Job.step cfg s a = some t)
    (h : completes v (s, a) = true) : (s.workers v).phase.past_check.isSome = true ∧
      (t.workers v).phase.past_check = none := by
  unfold completes at h
  split at h
  · rename_i w input base stream event was_dup now ha hph
    obtain rfl := of_decide_eq_true h
    subst ha
    dsimp only at hph
    refine ⟨by rw [hph]; rfl, ?_⟩
    simp only [Job.step, Worker.go, hph, Option.map_some, Option.some.injEq] at hs
    subst hs
    simp only [Sys.move, Function.update_self]
    rfl
  · cases h

/-- From `s₁` on, worker `v` has sent nothing but the event it was past the check with, and
completed that one at most. It counts along the trace, and the event in hand is what there is
left to count. -/
structure Winding (s₁ : Sys) (tr : List (Sys × Action)) (s : Sys) (v : Nat) : Prop where
  held : (s.workers v).phase.past_check = none ∨
    (s.workers v).phase.past_check = (s₁.workers v).phase.past_check
  count : tr.countP (completes v) + ((s.workers v).phase.past_check.isSome).toNat ≤ 1
  sends : ∀ p ∈ tr, ∀ event, Sends v event p → (s₁.workers v).phase.past_check = some event

/-- **One step.** A worker that completes its event has none left, and finds out before it takes
another. -/
theorem Winding.step {s₁ : Sys} {tr : List (Sys × Action)} {v : Nat} (h : Winding s₁ tr s v)
    (hvisible : Visible s) (hs : Job.step cfg s a = some t) : Winding s₁ ((s, a) :: tr) t v := by
  have hpast := past_check_of_step hvisible hs v
  refine ⟨?_, ?_, ?_⟩
  · rcases hpast with hnone | hsame
    · exact Or.inl hnone
    · rw [hsame]
      exact h.held
  · have hcount := h.count
    rw [List.countP_cons]
    -- completing the event uses it up, and any other step leaves it or drops it
    by_cases hdone : completes v (s, a) = true
    · obtain ⟨hsome, hnone⟩ := past_check_of_completes hs hdone
      rw [hsome] at hcount
      rw [hnone, if_pos hdone]
      simpa using hcount
    · rw [if_neg hdone, Nat.add_zero]
      rcases hpast with hnone | hsame
      · rw [hnone]
        exact (Nat.le_add_right _ _).trans hcount
      · rw [hsame]
        exact hcount
  · intro p hp event hsends
    rcases List.mem_cons.mp hp with rfl | hp
    · obtain ⟨input, job, stream, attempt, -, hph⟩ := hsends
      dsimp only at hph
      have hheld := h.held
      rw [hph] at hheld
      exact (hheld.resolve_left fun hnone => by cases hnone).symm
    · exact h.sends p hp event hsends

/-- **Pause and cancel.** After the commit of a pause, a cancel or a PATCH to one of the two,
with no request in flight or made later that queues the job: nobody acquires it; and if no
worker commits `COMPLETED` or `FAILED` while another one is executing the job, then every
worker completes one further event at most, and all that it sends are attempts of the one
event it was already past its status check with. -/
theorem pause_stops_job {s₀ s₁ : Sys} {i : Nat} {tx : ApiTx} {tr : List (Sys × Action)}
    (htx : s₀.api i = some tx) (hstops : tx.op.stops)
    (hcommit : Job.step cfg s₀ (.api_commit i) = some s₁)
    (hrequests : ∀ j tx', s₁.api j = some tx' → tx'.op.target ≠ some .queued)
    (hrun : Run (Job.step cfg) s₁ tr s) (hlater : StepsMeet NoQueueing tr) :
    (∀ p ∈ tr, ∀ w, p.2 ≠ .acquire w) ∧
    (StepsMeet EndsAlone tr → ∀ v, tr.countP (completes v) ≤ 1 ∧
      ∀ p ∈ tr, ∀ event, Sends v event p → (s₁.workers v).phase.past_check = some event) := by
  have hstatus : s₁.row.status = .paused ∨ s₁.row.status = .cancelled := by
    simp only [Job.step, htx, Option.some.injEq] at hcommit
    subst hcommit
    rw [api_commit_status]
    rcases hstops with h | h
    · exact Or.inl (by rw [h, Option.getD_some])
    · exact Or.inr (by rw [h, Option.getD_some])
  have hhalted : Halted s₁ := by
    refine ⟨?_, ?_, hrequests⟩ <;> rcases hstatus with h | h <;> rw [h] <;> decide
  refine ⟨fun p hp w ha => ?_, fun hends v => ?_⟩
  · have hmem := hrun.invariant_mem (fun s a t hI hC hs => hI.step hC hs) hhalted hlater p hp
    obtain ⟨t, ht⟩ := hrun.enabled p hp
    rw [ha] at ht
    cases step_took ht with
    | acquire _ _ helig =>
        rw [hmem.not_eligible] at helig
        cases helig
  · -- the three invariants, along the run
    suffices h : Halted s ∧ Visible s ∧ Winding s₁ tr s v from
      ⟨(Nat.le_add_right _ _).trans h.2.2.count, h.2.2.sends⟩
    induction hrun with
    | nil =>
        refine ⟨hhalted, hstatus.elim Or.inl fun h => Or.inr (Or.inl h), Or.inr rfl, ?_, ?_⟩
        · rw [List.countP_nil, Nat.zero_add]
          exact Bool.toNat_le _
        · intro p hp
          cases hp
    | cons _ hs ih =>
        rw [stepsMeet_cons] at hlater hends
        obtain ⟨hhalted, hvisible, hwinding⟩ := ih hlater.2 hends.2
        exact ⟨hhalted.step hlater.1 hs, hvisible.step hhalted hends.1 hs,
          hwinding.step hvisible hs⟩

end

/-! ### Two messages, one worker and two -/

/-- Worker `0` executes the job over two messages and has passed the check with the first,
and the request to pause has read the row. -/
def in_hand_actions : List Action :=
  [.produce 0 ⟨15, sampleRecord "1"⟩, .produce 0 ⟨16, sampleRecord "2"⟩,
    .api_read 0 .start, .api_commit 0, .boot 0, .acquire 0,
    .go 0 {}, .go 0 {}, .go 0 {}, .go 0 {}, .go 0 {}, .go 0 {}, .go 0 {}, .go 0 {},
    .api_read 0 .pause]

/-- One worker, step by step. -/
def going (w : Nat) (inputs : List Input) : List Action := inputs.map (.go w)

/-- The worker sends the event, records it, and finds the job paused before the second. -/
def winding_actions : List Action :=
  going 0 [{}, { success := true }, {}, {}, {}, {}, {}, {}, {}, {}]

/-- Worker `0` has come to the end of an empty partition, its lease has expired, and worker
`1` executes the job over two new messages and is about to read the status before the first.
The request to pause has read the row. -/
def overtaken_actions : List Action :=
  [.api_read 0 .start, .api_commit 0, .boot 0, .boot 1, .acquire 0,
    .go 0 {}, .go 0 {}, .go 0 {}, .go 0 {}, .go 0 {}, .go 0 {},
    .produce 0 ⟨15, sampleRecord "1"⟩, .produce 0 ⟨16, sampleRecord "2"⟩, .tick 61, .acquire 1,
    .go 1 {}, .go 1 {}, .go 1 {}, .go 1 {}, .go 1 {}, .go 1 {}, .go 1 {},
    .api_read 0 .pause]

/-- Worker `0` completes the job, and worker `1` replays both messages. -/
def overwriting_actions : List Action :=
  going 0 [{}, {}] ++
    going 1 [{}, {}, { success := true }, {}, {}, {}, {}, {}, {}, {}, { success := true }, {}, {}]

/-- The state these actions lead to from the creation of the job. -/
def after (acts : List Action) : Sys :=
  (exec (step short_config) (Sys.initial 1 empty_world 0) acts).getD (Sys.initial 1 empty_world 0)

section

variable {s t : Sys} {a : Action}

/-- Requests under one name only: there is no other in flight. -/
theorem api_none_of_others {cfg : Config} {i : Nat} (hnone : ∀ j, j ≠ i → s.api j = none)
    (ha : ∀ j op, a = .api_read j op → j = i) (hs : step cfg s a = some t) :
    ∀ j, j ≠ i → t.api j = none := by
  intro j hj
  by_contra hne
  obtain ⟨tx, htx⟩ := Option.ne_none_iff_exists'.mp hne
  rcases api_cases hs htx with htx | ⟨hread, -, -⟩
  · rw [hnone j hj] at htx
    cases htx
  · exact hj (ha j _ hread)

/-- The pause that `acts` end with is accepted and committed, and no other request is in
flight then. -/
theorem exists_pause_commit (acts : List Action) (hacts : ∀ j op, Action.api_read j op ∈ acts → j = 0)
    (h : ((exec (step short_config) (Sys.initial 1 empty_world 0) acts).bind fun s =>
      (s.api 0).map (·.op)) = some .pause) :
    ∃ tr tx s₁, Run (step short_config) (Sys.initial 1 empty_world 0) tr (after acts) ∧
      (∀ p ∈ tr, p.2 ∈ acts) ∧ (after acts).api 0 = some tx ∧ tx.op = .pause ∧
      step short_config (after acts) (.api_commit 0) = some s₁ ∧ ∀ j, s₁.api j = none := by
  obtain ⟨s, he, hop⟩ := Option.bind_eq_some_iff.mp h
  obtain ⟨tx, htx, hpause⟩ := Option.map_eq_some_iff.mp hop
  obtain rfl : after acts = s := by rw [after, he, Option.getD_some]
  have hrun := run_trace he
  have hmem : ∀ p ∈ trace (step short_config) (Sys.initial 1 empty_world 0) acts, p.2 ∈ acts :=
    fun _ hp => mem_of_mem_trace hp
  refine ⟨_, tx, _, hrun, hmem, htx, hpause, by simp only [step, htx]; rfl, fun j => ?_⟩
  dsimp only
  by_cases hj : j = 0
  · rw [hj, Function.update_self]
  · have hnone := hrun.invariant (I := fun s => ∀ j, j ≠ 0 → s.api j = none)
      (C := fun _ a => ∀ j op, a = .api_read j op → j = 0)
      (fun s a t hI hC hs => api_none_of_others hI hC hs) (fun _ _ => rfl)
      fun p hp j op ha => hacts j op (by rw [← ha]; exact hmem p hp)
    rw [Function.update_of_ne hj]
    exact hnone j hj

/-- Worker `0` has passed the check when the pause commits: it completes that event, and the
job stays paused. -/
theorem pause_stops_job_in_hand :
    ∃ s₁ tr s, step short_config (after in_hand_actions) (.api_commit 0) = some s₁ ∧
      Run (step short_config) s₁ tr s ∧ s.row.status = .paused ∧ s.row.events_processed = 1 ∧
      (∀ p ∈ tr, ∀ w, p.2 ≠ .acquire w) ∧
      ∀ v, tr.countP (completes v) ≤ 1 ∧
        ∀ p ∈ tr, ∀ event, Sends v event p → (s₁.workers v).phase.past_check = some event := by
  obtain ⟨tr₀, tx, s₁, hrun₀, hmem₀, htx, hop, hcommit, hrequests⟩ :=
    exists_pause_commit in_hand_actions
      (by simp only [in_hand_actions]; simp; omega) (by decide)
  have hend : ((step short_config (after in_hand_actions) (.api_commit 0)).bind fun s =>
      (exec (step short_config) s winding_actions).map fun s =>
        (s.row.status, s.row.events_processed)) = some (.paused, 1) := by
    decide
  rw [hcommit, Option.bind_some, Option.map_eq_some_iff] at hend
  obtain ⟨s, hs, hend⟩ := hend
  have hrun := run_trace hs
  have hgo : ∀ p ∈ trace (step short_config) s₁ winding_actions, ∃ input, .go 0 input = p.2 := by
    intro p hp
    obtain ⟨input, -, ha⟩ := List.mem_map.mp (mem_of_mem_trace hp)
    exact ⟨input, ha⟩
  -- worker `0` is the only one that has ever acquired the job
  have hidle₀ := (others_idle_of_run (w := 0) (fun _ _ => rfl) hrun₀ fun p hp v ha => by
    have hv := hmem₀ p hp
    rw [ha] at hv
    simpa [in_hand_actions] using hv).2
  have hidle := (others_idle_of_run (idle_of_others hidle₀ (by rintro _ ⟨⟩) hcommit) hrun
    fun p hp v ha => by
      obtain ⟨input, hp⟩ := hgo p hp
      rw [ha] at hp
      cases hp).1
  have hstops := pause_stops_job htx (Or.inl (by rw [hop]; rfl)) hcommit
    (fun j tx' h => by rw [hrequests j] at h; cases h) hrun fun p hp => by
      obtain ⟨input, hp⟩ := hgo p hp
      rw [← hp]
      exact trivial
  refine ⟨s₁, _, s, hcommit, hrun, congrArg Prod.fst hend, congrArg Prod.snd hend, hstops.1,
    hstops.2 fun p hp => ?_⟩
  obtain ⟨input, ha⟩ := hgo p hp
  rw [← ha]
  exact fun _ _ _ _ _ _ u hu => hidle p hp u hu

/-- A paused job that is replayed to its end: worker `0`, whose lease has expired, writes
`COMPLETED` over the `PAUSED`, and worker `1` completes two events after the pause. -/
theorem paused_job_replayed_to_its_end :
    ∃ tr₀ tx s₁ tr s, Run (step short_config) (Sys.initial 1 empty_world 0) tr₀
        (after overtaken_actions) ∧
      (after overtaken_actions).api 0 = some tx ∧ tx.op = .pause ∧
      step short_config (after overtaken_actions) (.api_commit 0) = some s₁ ∧
      s₁.row.status = .paused ∧ (∀ j, s₁.api j = none) ∧
      Run (step short_config) s₁ tr s ∧ StepsMeet NoQueueing tr ∧
      s.row.status = .completed ∧ tr.countP (completes 1) = 2 := by
  obtain ⟨tr₀, tx, s₁, hrun₀, -, htx, hop, hcommit, hrequests⟩ :=
    exists_pause_commit overtaken_actions
      (by simp only [overtaken_actions]; simp; omega) (by decide)
  have hend : ((step short_config (after overtaken_actions) (.api_commit 0)).bind fun s₁ =>
      (exec (step short_config) s₁ overwriting_actions).map fun s =>
        (s₁.row.status, s.row.status,
          (trace (step short_config) s₁ overwriting_actions).countP (completes 1))) =
      some (.paused, .completed, 2) := by
    decide
  rw [hcommit, Option.bind_some, Option.map_eq_some_iff] at hend
  obtain ⟨s, hs, hend⟩ := hend
  simp only [Prod.mk.injEq] at hend
  refine ⟨tr₀, tx, s₁, _, s, hrun₀, htx, hop, hcommit, hend.1, hrequests, run_trace hs,
    fun p hp => ?_, hend.2.1, hend.2.2⟩
  have hgo : ∃ v input, .go v input = p.2 := by
    rcases List.mem_append.mp (mem_of_mem_trace hp) with hmem | hmem
    all_goals
      obtain ⟨input, -, ha⟩ := List.mem_map.mp hmem
      exact ⟨_, input, ha⟩
  obtain ⟨v, input, ha⟩ := hgo
  rw [← ha]
  exact trivial

end

end WalStream.Job

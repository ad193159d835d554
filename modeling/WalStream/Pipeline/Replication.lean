/-
From the source table to the target table: a job replays the changes of a window.

The system is the job with its workers, the replayer with its dedup store, and the target
table. A worker calls `ReplayEvent` and waits; the handler checks the key, has the statement run
and stores the key, each at its own time; the worker is given the response, or an exception at
any time, or dies. `played` records which changes of the history have been applied, by their
place in it; nothing reads it.

A target that has seen changes before, from jobs that were cancelled, that failed or that are
run again, is in a state the source need not ever have been in, and the dedup store knows some
of the changes and has forgotten others. A call that is answered with duplicate leaves its
change as it was applied before, so it matters what has been applied since. The invariant is
that whatever the store knows is behind the mark. It asks two things: the window does not skip
a change, and no change is applied while a later one is known. A job that completes then takes
the target to where the source is.
-/
import WalStream.Pipeline.System
import WalStream.Pipeline.Window
import WalStream.Lib.Simulation

set_option autoImplicit false

namespace WalStream.Replication

open Lib Source Replayer Ingest

variable {n : Nat} {V : Fin n → Type} {σ : TableSchema V}

/-! ## The system

A job, a replayer and its target, with the calls between them. `places` numbers the entries of
the window by the changes they stand for; it is there to state the invariant, and only the
record of what was played looks at it. -/

structure Sys (σ : TableSchema V) where
  job : Job.Sys
  server : Server
  db : Table σ
  /-- The call each worker has made last. -/
  call : Nat → Option Nat
  /-- The event each call was made for. -/
  sent : Nat → Option ReplayEvent
  played : List Nat

/-- A job that is still to be started, and a replayer that has just been. -/
def Sys.initial (speed_factor : Rat) (world : World) (clock : Nat) (store : DedupStore) (now : Int)
    (db : Table σ) (played : List Nat) : Sys σ :=
  { job := .initial speed_factor world clock,
    server := .initial store now,
    db := db,
    call := fun _ => none,
    sent := fun _ => none,
    played := played }

/-- The settings of the workers and of the replayer. -/
structure Config (V : Fin n → Type) where
  job : Job.Config
  md5_16 : String → String
  ttl : Int
  cat : Catalog V

inductive Action
  /-- A step of the job in which no call is made and none is answered. -/
  | job (a : Job.Action)
  /-- Worker `v` calls `ReplayEvent`, as call `i`. -/
  | send (v i : Nat)
  /-- Worker `v` is given the response of its call. -/
  | answer (v : Nat)
  /-- The statement of call `i` runs; if it is not for this table, it comes to `other`. The
  connection may break: then `apply` returns `False`, whether the statement was carried out or
  not. -/
  | apply (i : Nat) (other : Bool) (broken : Option Bool)
  /-- Call `i` ends without an answer; what it has sent to the database may be carried out. -/
  | lose (i : Nat) (carried_out : Bool)
  /-- Another step of the replayer. -/
  | server (a : Replayer.Action)

/-- The step makes no call and brings no response. A call may end with `grpc.RpcError`. The
steps that do one or the other are actions of their own, since they belong to the job and to the
replayer both. -/
def silent (s : Job.Sys) : Job.Action → Bool
  | .go v input =>
      match (s.workers v).phase with
      | .in_hand _ _ _ (.ready _) => false
      | .in_hand _ _ _ (.awaiting _) => !(input.success || input.was_duplicate)
      | _ => true
  | _ => true

/-- What the step does to the job. -/
def job_action (s : Sys σ) : Action → Option Job.Action
  | .job a => some a
  | .send v _ => some (.go v {})
  | .answer v =>
      ((s.call v).bind s.server.calls).bind fun call =>
        match call.phase with
        | .answered response =>
            some (.go v { success := response.success, was_duplicate := response.was_duplicate })
        | _ => none
  | _ => none

/-- The call whose handler makes the step. -/
def handler_of : Replayer.Action → Option Nat
  | .check i _ | .apply i _ | .stamp i | .mark i _ | .lose i _ => some i
  | _ => none

def Action.handler : Action → Option Nat
  | .apply i _ _ | .lose i _ => some i
  | .server a => handler_of a
  | _ => none

/-- The call whose statement the step carries out. -/
def Sys.runs (s : Sys σ) : Action → Option Nat
  | .apply i _ broken => if broken.getD true then some i else none
  | .lose i carried_out =>
      (s.server.calls i).bind fun call =>
        if carried_out && call.phase == .applying then some i else none
  | _ => none

variable [∀ i, DecidableEq (V i)]

/-- The statement of call `i` is carried out. -/
def Sys.serve (cat : Catalog V) (places : List (MessageId × Nat)) (s : Sys σ) (i : Nat)
    (event : ChangeRecord) : Sys σ :=
  { s with
    db := (apply cat s.db event).1,
    played := s.played ++ ((s.sent i).bind fun sent => places.lookup sent.message_id).toList }

def step (cfg : Config V) (places : List (MessageId × Nat)) (s : Sys σ) :
    Action → Option (Sys σ)
  | .job a =>
      if silent s.job a then (Job.step cfg.job s.job a).map fun job => { s with job := job }
      else none
  | .send v i =>
      match (s.job.workers v).phase with
      | .in_hand _ _ event (.ready _) =>
          (Replayer.step cfg.md5_16 cfg.ttl s.server (.receive i ⟨event.payload, ""⟩)).bind
            fun server => (Job.step cfg.job s.job (.go v {})).map fun job =>
              { s with
                job := job,
                server := server,
                call := Function.update s.call v (some i),
                sent := Function.update s.sent i (some event) }
      | _ => none
  | .answer v =>
      match (s.job.workers v).phase, (s.call v).bind s.server.calls with
      | .in_hand _ _ _ (.awaiting _), some call =>
          match call.phase with
          | .answered response =>
              (Job.step cfg.job s.job (.go v
                { success := response.success, was_duplicate := response.was_duplicate })).map
                fun job => { s with job := job }
          | _ => none
      | _, _ => none
  | .apply i other broken =>
      (s.server.calls i).bind fun call =>
        match broken with
        | none =>
            let ok := if cfg.cat.table call.event.table then
              (apply cfg.cat s.db call.event).2 else other
            (Replayer.step cfg.md5_16 cfg.ttl s.server (.apply i (.ok ok))).map fun server =>
              { s.serve cfg.cat places i call.event with server := server }
        | some carried_out =>
            (Replayer.step cfg.md5_16 cfg.ttl s.server (.apply i (.ok false))).map fun server =>
              { if carried_out then s.serve cfg.cat places i call.event else s with
                server := server }
  | .lose i carried_out =>
      (s.server.calls i).bind fun call =>
        (Replayer.step cfg.md5_16 cfg.ttl s.server (.lose i carried_out)).map fun server =>
          { if carried_out && call.phase == .applying then s.serve cfg.cat places i call.event
            else s with server := server }
  | .server a =>
      if Pipeline.internal a then
        (Replayer.step cfg.md5_16 cfg.ttl s.server a).map fun server => { s with server := server }
      else none

/-! ### What a step can do -/

/-- `Took cfg places s a t`: the step `a` out of `s`, with its guard, and the state after it.
The steps of the job and of the server are those of their own models; what is added here is who
waits for whom, and the target. -/
inductive Took (cfg : Config V) (places : List (MessageId × Nat)) (s : Sys σ) :
    Action → Sys σ → Prop
  | job (a : Job.Action) (job : Job.Sys) (hsilent : silent s.job a = true)
      (hjob : Job.step cfg.job s.job a = some job) : Took cfg places s (.job a) { s with job := job }
  | send (v i : Nat) (replay_job : Job.ReplayJob) (stream : Stream) (event : ReplayEvent)
      (attempt : Nat) (server : Server) (job : Job.Sys)
      (hph : (s.job.workers v).phase = .in_hand replay_job stream event (.ready attempt))
      (hserver : Replayer.step cfg.md5_16 cfg.ttl s.server (.receive i ⟨event.payload, ""⟩)
        = some server)
      (hjob : Job.step cfg.job s.job (.go v {}) = some job) :
      Took cfg places s (.send v i)
        { s with
          job := job,
          server := server,
          call := Function.update s.call v (some i),
          sent := Function.update s.sent i (some event) }
  | answer (v i : Nat) (call : Call) (response : ReplayResponse) (job : Job.Sys)
      (hready : ∀ replay_job stream event attempt,
        (s.job.workers v).phase ≠ .in_hand replay_job stream event (.ready attempt))
      (hcall : s.call v = some i) (hi : s.server.calls i = some call)
      (hph : call.phase = .answered response)
      (hjob : Job.step cfg.job s.job (.go v
        { success := response.success, was_duplicate := response.was_duplicate }) = some job) :
      Took cfg places s (.answer v) { s with job := job }
  /-- A statement is carried out, and its handler goes on. -/
  | served (a : Action) (i : Nat) (call : Call) (sa : Replayer.Action) (server : Server)
      (hown : job_action s a = none) (hi : s.server.calls i = some call)
      (hruns : s.runs a = some i) (hhandler : a.handler = handler_of sa)
      (hserver : Replayer.step cfg.md5_16 cfg.ttl s.server sa = some server) :
      Took cfg places s a { s.serve cfg.cat places i call.event with server := server }
  /-- The replayer makes a step by itself. -/
  | server (a : Action) (sa : Replayer.Action) (server : Server) (hown : job_action s a = none)
      (hreceive : ∀ i request, sa ≠ .receive i request) (happly : ∀ i, sa ≠ .apply i (.ok true))
      (hhandler : a.handler = handler_of sa)
      (hserver : Replayer.step cfg.md5_16 cfg.ttl s.server sa = some server) :
      Took cfg places s a { s with server := server }

section

variable {cfg : Config V} {places : List (MessageId × Nat)} {s t : Sys σ} {a : Action}

omit [∀ i, DecidableEq (V i)] in
/-- A statement is run by the handler of its call. -/
theorem handler_of_runs {i : Nat} (h : s.runs a = some i) : a.handler = some i := by
  cases a with
  | apply j other broken =>
      simp only [Sys.runs, Option.ite_none_right_eq_some] at h
      exact h.2
  | lose j carried_out =>
      simp only [Sys.runs, Option.bind_eq_some_iff, Option.ite_none_right_eq_some] at h
      obtain ⟨_, _, _, h⟩ := h
      exact h
  | _ => cases h

/-- **The inversion of `step`.** -/
theorem step_took (h : step cfg places s a = some t) : Took cfg places s a t := by
  cases a with
  | job a =>
      simp only [step, Option.ite_none_right_eq_some, Option.map_eq_some_iff] at h
      obtain ⟨hsilent, job, hjob, rfl⟩ := h
      exact .job a job hsilent hjob
  | send v i =>
      simp only [step] at h
      split at h
      · rename_i hph
        simp only [Option.bind_eq_some_iff, Option.map_eq_some_iff] at h
        obtain ⟨server, hserver, job, hjob, rfl⟩ := h
        exact .send v i _ _ _ _ server job hph hserver hjob
      · cases h
  | answer v =>
      simp only [step] at h
      split at h
      · rename_i call hph hcall
        obtain ⟨i, hi, hcall⟩ := Option.bind_eq_some_iff.mp hcall
        split at h
        · rename_i response hanswered
          obtain ⟨job, hjob, rfl⟩ := Option.map_eq_some_iff.mp h
          exact .answer v i call response job (by simp [hph]) hi hcall hanswered hjob
        · cases h
      · cases h
  | apply i other broken =>
      simp only [step, Option.bind_eq_some_iff] at h
      obtain ⟨call, hi, h⟩ := h
      cases broken with
      | none =>
          obtain ⟨server, hserver, rfl⟩ := Option.map_eq_some_iff.mp h
          exact .served _ i call _ server rfl hi rfl rfl hserver
      | some carried_out =>
          obtain ⟨server, hserver, rfl⟩ := Option.map_eq_some_iff.mp h
          cases carried_out with
          | true => exact .served _ i call _ server rfl hi rfl rfl hserver
          | false => exact .server _ _ server rfl (by simp) (by simp) rfl hserver
  | lose i carried_out =>
      simp only [step, Option.bind_eq_some_iff] at h
      obtain ⟨call, hi, h⟩ := h
      obtain ⟨server, hserver, rfl⟩ := Option.map_eq_some_iff.mp h
      split
      · rename_i hruns
        exact .served _ i call _ server rfl hi
          (by simp only [Sys.runs, hi, Option.bind_some, hruns, if_true]) rfl hserver
      · exact .server _ _ server rfl (by simp) (by simp) rfl hserver
  | server a =>
      simp only [step, Option.ite_none_right_eq_some, Option.map_eq_some_iff] at h
      obtain ⟨hinternal, server, hserver, rfl⟩ := h
      refine .server _ a server rfl ?_ ?_ rfl hserver
      · rintro i request rfl
        cases hinternal
      · rintro i rfl
        cases hinternal

end

/-! ## The invariant

The target is where a sequence of changes has led it, of which some may have been played more
than once. `mark` says how far into the history this sequence leads; an entry is passed when its
change is behind the mark, and the checkpoint only ever moves over entries that are passed. -/

/-- The entry counts as passed: its change is behind the mark, and from the entries after it the
window gets the target through the history. An answer makes the entry passed, whether the
statement was carried out for it or the key was known. -/
structure Passed (hist : List (MessageId × ChangeRecord)) (order : List Nat) (played : List Nat)
    (m : MessageId) : Prop where
  settled : Settled hist order played m
  behind : Behind hist order played m

/-- The call was made for the event. -/
structure Made (cfg : Config V) (s : Sys σ) (i : Nat) (call : Call) (event : ReplayEvent) :
    Prop where
  found : s.server.calls i = some call
  sent : s.sent i = some event
  event_eq : call.event = event.payload
  key_eq : call.idemp_key = compute_idempotency_key cfg.md5_16 event.payload

/-- The target follows the checkpoint: from what comes after an entry that is recorded, or is
about to be, the target gets through the history, and the entry to come next is in turn. It
speaks of what is recorded and not of what was sent last, because a worker that dies starts
again from there. -/
structure Target (cat : Catalog V) (t₀ : Table σ) (records : List ChangeRecord)
    (hist : List (MessageId × ChangeRecord)) (order : List Nat) (job : Job.Sys) (db : Table σ)
    (played : List Nat) : Prop where
  partly : Partly cat t₀ records db played
  advanced : ∀ m ∈ job.advanced, Settled hist order played m
  next : ∀ i m k, (hist.map Prod.fst)[i]? = some m → order[i]? = some k → m ∉ job.advanced →
    (∀ j m', i = j + 1 → (hist.map Prod.fst)[j]? = some m' → m' ∈ job.advanced) →
    k ≤ mark played
  answered : ∀ v event, answered (job.workers v).phase = some event →
    Passed hist order played event.message_id

/-- The invariant. `events` is all that the window holds, of other tables too. Each part is kept
by some of the parties and left alone by the others: the target moves with statements, the
memory with keys that are stored, and the calls with the worker. -/
structure Follows (cfg : Config V) (source : SourceName) (t₀ : Table σ)
    (records : List ChangeRecord) (hist events : List (MessageId × ChangeRecord))
    (order : List Nat) (s : Sys σ) : Prop where
  accounts : Job.Accounts cfg.job.window s.job
  holds : Holds cfg.job.window cfg.cat.table source hist s.job.world
  stored : Holds cfg.job.window (fun _ => true) source events s.job.world
  genuine : Genuine s.job
  made : ∀ v event, awaited (s.job.workers v).phase = some event →
    ∃ i call, s.call v = some i ∧ Made cfg s i call event
  target : OnSource source s.job → Target cfg.cat t₀ records hist order s.job s.db s.played
  remembers : OnSource source s.job →
    Remembers cfg.md5_16 records s.server.store s.server.clock s.played
  /-- A call has its credit for an entry that is passed. -/
  credited : OnSource source s.job → ∀ v event i call,
    awaited (s.job.workers v).phase = some event → s.call v = some i →
    s.server.calls i = some call → call.phase.credited = true →
    Passed hist order s.played event.message_id

section

variable {cfg : Config V} {source : SourceName} {t₀ : Table σ} {records : List ChangeRecord}
  {hist events : List (MessageId × ChangeRecord)} {order : List Nat} {s t : Sys σ}
  {event : ReplayEvent} {i v : Nat}

/-! ### The entry a worker waits for -/

/-- Only one worker is not idle. The handlers of earlier workers may still be there; they are
what `Orderly` has to exclude. -/
theorem Follows.eq_of_busy (h : Follows cfg source t₀ records hist events order s) {u v : Nat}
    (hu : (s.job.workers u).phase ≠ .idle) (hv : (s.job.workers v).phase ≠ .idle) : u = v :=
  Option.some.inj ((h.accounts.alone u hu).symm.trans (h.accounts.alone v hv))

/-- So there is one event at most that is waited for. -/
theorem Follows.eq_of_awaited (h : Follows cfg source t₀ records hist events order s) {u : Nat}
    {event' : ReplayEvent} (hu : awaited (s.job.workers u).phase = some event')
    (hv : awaited (s.job.workers v).phase = some event) : u = v ∧ event' = event := by
  have hbusy : ∀ {w e}, awaited (s.job.workers w).phase = some e →
      (s.job.workers w).phase ≠ .idle := by
    intro w e hw hidle
    rw [hidle] at hw
    cases hw
  obtain rfl := h.eq_of_busy (hbusy hu) (hbusy hv)
  exact ⟨rfl, Option.some.inj (hu.symm.trans hv)⟩

/-- While a worker waits no entry is about to be recorded: it records what was answered before
it takes the next one. -/
theorem Follows.not_answered (h : Follows cfg source t₀ records hist events order s)
    (hv : awaited (s.job.workers v).phase = some event) {u : Nat} {event' : ReplayEvent}
    (hu : answered (s.job.workers u).phase = some event') : False := by
  obtain ⟨job, stream, attempt, hph⟩ := awaited_eq_some_iff.mp hv
  have heq : u = v := h.eq_of_busy (fun hidle => by rw [hidle] at hu; cases hu)
    (fun hidle => by rw [hidle] at hph; cases hph)
  rw [heq, hph] at hu
  cases hu

/-- What comes before the event that a worker waits for is recorded, since the generator has
passed it. Here the accounting of the job is used: what was passed of the window is what the row
covers. -/
theorem Follows.recorded (h : Follows cfg source t₀ records hist events order s)
    (hordered : (hist.map Prod.fst).Pairwise MessageId.before)
    (hv : awaited (s.job.workers v).phase = some event)
    (hi : (hist.map Prod.fst)[i]? = some event.message_id) {j : Nat} {m : MessageId}
    (hj : (hist.map Prod.fst)[j]? = some m) (hji : j < i) : m ∈ s.job.advanced := by
  obtain ⟨job, stream, attempt, hph⟩ := awaited_eq_some_iff.mp hv
  have hhand := h.accounts.workers v
  rw [hph] at hhand
  replace hhand := hhand.2
  have hbefore := before_of_lt hordered hj hi hji
  obtain ⟨⟨m, r⟩, hmem, rfl⟩ := List.mem_map.mp (List.mem_of_getElem? hj)
  obtain ⟨_, hin, _, _⟩ := (h.holds m r).mp hmem
  rcases (hhand.passed m hin).mp (hhand.before m (Or.inr hbefore)) with hcov | rfl
  · exact (h.accounts.books.advanced m).mpr ⟨hin, hcov⟩
  · exact absurd hbefore (before_irrefl _)

/-- And what is recorded comes before it. Together, the event is the first one of the window
that is not recorded. -/
theorem Follows.recorded_lt (h : Follows cfg source t₀ records hist events order s)
    (hordered : (hist.map Prod.fst).Pairwise MessageId.before)
    (hv : awaited (s.job.workers v).phase = some event)
    (hi : (hist.map Prod.fst)[i]? = some event.message_id) {m : MessageId}
    (hm : m ∈ s.job.advanced) {j : Nat} (hj : (hist.map Prod.fst)[j]? = some m) : j < i := by
  obtain ⟨job, stream, attempt, hph⟩ := awaited_eq_some_iff.mp hv
  have hhand := h.accounts.workers v
  rw [hph] at hhand
  have hfresh := hhand.2.fresh
  have hcov := ((h.accounts.books.advanced m).mp hm).2
  by_contra hnot
  rcases Nat.lt_or_eq_of_le (Nat.not_lt.mp hnot) with hlt | rfl
  · rw [covers_of_before (before_of_lt hordered hi hj hlt) hcov] at hfresh
    cases hfresh
  · rw [hi, Option.some.injEq] at hj
    rw [hj, hcov] at hfresh
    cases hfresh

/-- From the event that a worker waits for, the window gets the target through the history. For
the first event that is what is assumed of the window and of the target; for every other one it
is what the invariant says of the entry before. -/
theorem Follows.leads (h : Follows cfg source t₀ records hist events order s)
    (hwindow : WindowOf records hist order) (hon : OnSource source s.job)
    (hv : awaited (s.job.workers v).phase = some event)
    (hi : (hist.map Prod.fst)[i]? = some event.message_id) :
    Leads advance order 0 i (mark s.played) := by
  have htarget := h.target hon
  cases i with
  | zero => exact leads_of_mark hwindow.in_range (hwindow.mark_le htarget.partly)
  | succ j =>
      have hlt : j < (hist.map Prod.fst).length :=
        Nat.lt_of_succ_lt (List.getElem?_eq_some_iff.mp hi).1
      have hj := List.getElem?_eq_getElem hlt
      exact htarget.advanced _
        (h.recorded hwindow.ordered hv hi hj (Nat.lt_succ_self j)) j hj

/-- The event that a worker waits for is not ahead of the mark. A window in turn skips nothing,
so the change was passed, or is the next one. -/
theorem Follows.in_turn (h : Follows cfg source t₀ records hist events order s)
    (hwindow : WindowOf records hist order) (hon : OnSource source s.job)
    (hv : awaited (s.job.workers v).phase = some event)
    (hi : (hist.map Prod.fst)[i]? = some event.message_id) {k : Nat} (hk : order[i]? = some k) :
    k ≤ mark s.played := by
  refine (h.target hon).next i _ k hi hk (fun hmem => ?_) fun j m' hij hj => ?_
  · exact Nat.lt_irrefl i (h.recorded_lt hwindow.ordered hv hi hmem hi)
  · exact h.recorded hwindow.ordered hv hi hj (hij ▸ Nat.lt_succ_self j)

/-- What the worker waits for is stored in the window, and its change is known. -/
theorem Follows.event_cases (h : Follows cfg source t₀ records hist events order s)
    (hwindow : WindowOf records hist order) (hon : OnSource source s.job)
    (hv : awaited (s.job.workers v).phase = some event) :
    (event.message_id, event.payload) ∈ events ∧
    ((event.message_id ∉ hist.map Prod.fst ∧ cfg.cat.table event.payload.table = false) ∨
    ∃ (i k : Nat), (hist.map Prod.fst)[i]? = some event.message_id ∧ order[i]? = some k ∧
      (numbered hist order).lookup event.message_id = some k ∧
      ∃ hk : k < records.length, timeless event.payload = timeless records[k]) := by
  obtain ⟨job, stream, attempt, hph⟩ := awaited_eq_some_iff.mp hv
  have hhand := h.accounts.workers v
  rw [hph] at hhand
  replace hhand := hhand.2
  have hhas := h.genuine v event (by rw [hph]; rfl)
  -- it comes from the generator, which reads the job's source
  have hsource : event.message_id.source = source := by
    rw [hhand.event_source]
    rcases hon with hnone | hsome
    · rw [hhand.source] at hnone
      cases hnone
    · rw [hhand.source] at hsome
      exact Option.some.inj hsome
  refine ⟨(h.stored _ _).mpr ⟨hsource, hhand.inWindow, hhas, rfl⟩, ?_⟩
  -- of one of the tables, and then in the history, or of another table
  by_cases hmem : event.message_id ∈ hist.map Prod.fst
  · obtain ⟨⟨m, r⟩, hmem, hm⟩ := List.mem_map.mp hmem
    dsimp only at hm
    subst hm
    have hr := ((h.holds _ _).mp hmem).2.2.1.eq h.accounts.safe.sorted hhas
    subst hr
    obtain ⟨i, hi⟩ := List.mem_iff_getElem?.mp hmem
    obtain ⟨k, hk, hlookup, hin, htimeless⟩ := hwindow.place hi
    exact Or.inr ⟨i, k, by rw [List.getElem?_map, hi]; rfl, hk, hlookup, hin, htimeless⟩
  · refine Or.inl ⟨hmem, ?_⟩
    by_contra hown
    exact hmem (List.mem_map_of_mem ((h.holds _ _).mpr
      ⟨hsource, hhand.inWindow, hhas, by simpa using hown⟩))

/-! ### Statements -/

/-- The dedup store knows no change that comes after that of the event. -/
def Newest (cfg : Config V) (records : List ChangeRecord) (places : List (MessageId × Nat))
    (s : Sys σ) (event : ReplayEvent) : Prop :=
  ∀ k, places.lookup event.message_id = some k → ∀ k' (hk' : k' < records.length), k < k' →
    key_exists s.server.store (compute_idempotency_key cfg.md5_16 records[k']) s.server.clock
      = false

/-- **A statement is carried out**, for the first time or again: the entry is passed, and those
before it stay settled. The change is at the mark or before it. In the first case the mark moves
on behind it, and in the second the rest of the window plays over what is undone. -/
theorem Follows.target_serve (h : Follows cfg source t₀ records hist events order s)
    (hwindow : WindowOf records hist order) (hon : OnSource source s.job)
    (hv : awaited (s.job.workers v).phase = some event)
    (hnewest : Newest cfg records (numbered hist order) s event) {db : Table σ}
    {played : List Nat} (hdb : db = (apply cfg.cat s.db event.payload).1)
    (hplayed : played = s.played ++ ((numbered hist order).lookup event.message_id).toList) :
    Target cfg.cat t₀ records hist order s.job db played ∧
      Passed hist order played event.message_id ∧
      Remembers cfg.md5_16 records s.server.store s.server.clock played := by
  subst hdb hplayed
  have htarget := h.target hon
  rcases (h.event_cases hwindow hon hv).2 with ⟨hnot, hother⟩ |
    ⟨i, k, hi, hk, hlookup, hin, htimeless⟩
  · -- an event of another table
    have hnone : (numbered hist order).lookup event.message_id = none :=
      lookup_numbered_of_not_mem hnot
    rw [hnone, apply_of_other hother, Option.toList_none, List.append_nil]
    refine ⟨htarget, ⟨fun j hj => absurd (List.mem_of_getElem? hj) hnot, fun k hk => ?_⟩,
      h.remembers hon⟩
    rw [hnone] at hk
    cases hk
  · -- in turn, so that the mark is behind it afterwards
    have hmark : mark (s.played ++ [k]) = k + 1 := by
      rw [mark_append, advance_of_le (h.in_turn hwindow hon hv hi hk)]
    obtain ⟨hlt, hki⟩ := List.getElem?_eq_some_iff.mp hk
    rw [hlookup, Option.toList_some]
    refine ⟨⟨htarget.partly.apply hin htimeless, fun m hm j hj => ?_, fun i' m k' hi' hk' hm hprev => ?_,
      fun u event' hu => (h.not_answered hv hu).elim⟩, ⟨fun j hj => ?_, fun k' hk' => ?_⟩,
      fun k' hk' hlive => ?_⟩
    · -- what comes before is settled all the same
      have hji := h.recorded_lt hwindow.ordered hv hi hm hj
      rw [mark_append, ← hki]
      exact (advance_absorbing order 0).keeps hlt hji (htarget.advanced m hm j hj)
    · -- the entry to be recorded next is this one
      rcases Nat.lt_trichotomy i' i with hbefore | rfl | hafter
      · exact absurd (h.recorded hwindow.ordered hv hi hi' hbefore) hm
      · rw [hk, Option.some.injEq] at hk'
        rw [hmark, hk']
        exact Nat.le_succ _
      · obtain ⟨j, rfl⟩ : ∃ j, i' = j + 1 := ⟨i' - 1, by omega⟩
        have hj := List.getElem?_eq_getElem
          (Nat.lt_of_succ_lt (List.getElem?_eq_some_iff.mp hi').1)
        have := h.recorded_lt hwindow.ordered hv hi (hprev j _ rfl hj) hj
        omega
    · obtain rfl := eq_of_before hwindow.ordered hi hj
      rw [mark_append, ← hki]
      exact (leads_iff hlt).mp (h.leads hwindow hon hv hi)
    · rw [hlookup, Option.some.injEq] at hk'
      rw [hmark, hk']
      exact Nat.lt_succ_self _
    · -- nothing later is known
      rw [hmark]
      by_contra hnot
      have := hnewest k hlookup k' hk' (by omega)
      rw [hlive] at this
      cases this

/-- The rest of the invariant is not about the target, and a statement leaves it alone. -/
theorem Follows.serve (h : Follows cfg source t₀ records hist events order s)
    (hwindow : WindowOf records hist order) {call : Call}
    (hv : awaited (s.job.workers v).phase = some event) (hcall : s.call v = some i)
    (hi : s.server.calls i = some call)
    (hnewest : Newest cfg records (numbered hist order) s event) :
    Follows cfg source t₀ records hist events order
        (s.serve cfg.cat (numbered hist order) i call.event) ∧
      (OnSource source s.job →
        Passed hist order (s.serve cfg.cat (numbered hist order) i call.event).played
          event.message_id) := by
  obtain ⟨i', call', hcall', hmade⟩ := h.made v event hv
  obtain rfl : i = i' := Option.some.inj (hcall.symm.trans hcall')
  obtain rfl : call = call' := Option.some.inj (hi.symm.trans hmade.found)
  have hdb : (s.serve cfg.cat (numbered hist order) i call.event).db
      = (apply cfg.cat s.db event.payload).1 := by rw [Sys.serve, hmade.event_eq]
  have hplayed : (s.serve cfg.cat (numbered hist order) i call.event).played
      = s.played ++ ((numbered hist order).lookup event.message_id).toList := by
    rw [Sys.serve, hmade.sent, Option.bind_some]
  have hall := fun hon : OnSource source s.job =>
    h.target_serve hwindow hon hv hnewest hdb hplayed
  refine ⟨⟨h.accounts, h.holds, h.stored, h.genuine, fun u e hu => ?_, fun hon => (hall hon).1,
    fun hon => (hall hon).2.2, fun hon u e j c hu _ _ _ => ?_⟩, fun hon => (hall hon).2.1⟩
  · obtain ⟨j, c, hj, hmade'⟩ := h.made u e hu
    exact ⟨j, c, hj, hmade'.found, hmade'.sent, hmade'.event_eq, hmade'.key_eq⟩
  · obtain ⟨-, rfl⟩ := h.eq_of_awaited hu hv
    exact (hall hon).2.1

/-- **A duplicate** is an entry whose change is behind the mark. Nothing is applied for it, so
the mark stays; that is right only because the store knows no change beyond the mark. -/
theorem Follows.skip (h : Follows cfg source t₀ records hist events order s)
    (hwindow : WindowOf records hist order) (hon : OnSource source s.job)
    (hv : awaited (s.job.workers v).phase = some event)
    (hlive : key_exists s.server.store (compute_idempotency_key cfg.md5_16 event.payload)
      s.server.clock = true) : Passed hist order s.played event.message_id := by
  rcases (h.event_cases hwindow hon hv).2 with ⟨hnot, hother⟩ |
    ⟨i, k, hi, hk, hlookup, hin, htimeless⟩
  · refine ⟨fun j hj => absurd (List.mem_of_getElem? hj) hnot, fun k hk => ?_⟩
    rw [lookup_numbered_of_not_mem hnot] at hk
    cases hk
  · rw [key_of_timeless htimeless] at hlive
    have hbehind := h.remembers hon k hin hlive
    obtain ⟨hlt, hki⟩ := List.getElem?_eq_some_iff.mp hk
    refine ⟨fun j hj => ?_, fun k' hk' => ?_⟩
    · obtain rfl := eq_of_before hwindow.ordered hi hj
      exact leads_skip hwindow.in_range (hwindow.mark_le (h.target hon).partly) hlt
        (hki ▸ hbehind) (h.leads hwindow hon hv hi)
    · rw [hlookup, Option.some.injEq] at hk'
      rwa [← hk']

/-! ### The replayer -/

/-- A worker waits for the call. A handler that is not attended belongs to a call that timed
out, or to a worker that has died. -/
def Attended (s : Sys σ) (i : Nat) : Prop :=
  ∃ v event, awaited (s.job.workers v).phase = some event ∧ s.call v = some i

/-- An event that is stored under the key of a change is an entry of the change. Calls are made
for events of the window alone, and their keys are kept apart. -/
theorem Follows.place_of_key (h : Follows cfg source t₀ records hist events order s)
    (hwindow : WindowOf records hist order)
    (hapart : KeysApart cfg.md5_16 cfg.cat.table records events) (hon : OnSource source s.job)
    (hv : awaited (s.job.workers v).phase = some event) {k : Nat} (hk : k < records.length)
    (hkey : stored_key (compute_idempotency_key cfg.md5_16 event.payload)
      = some (compute_idempotency_key cfg.md5_16 records[k])) :
    (numbered hist order).lookup event.message_id = some k := by
  obtain ⟨hmem, ⟨-, hother⟩ | ⟨i, j, -, -, hlookup, hj, htimeless⟩⟩ := h.event_cases hwindow hon hv
  · exact absurd hkey (hapart.others _ _ hmem hother k hk)
  · rw [key_of_timeless htimeless] at hkey
    rw [hlookup, hapart.changes j hj k hk hkey]

/-- The key of a change is put into the store only by a call for the change, which is passed by
then. So what the store comes to know is behind the mark, and it stays there: a step that moves
the mark back would have to carry out a statement, and `Newest` excludes it. -/
theorem Follows.remembers_step (h : Follows cfg source t₀ records hist events order s)
    (hwindow : WindowOf records hist order)
    (hapart : KeysApart cfg.md5_16 cfg.cat.table records events) {sa : Replayer.Action}
    {server : Server} (hs : Replayer.step cfg.md5_16 cfg.ttl s.server sa = some server)
    (hattended : ∀ i ∈ handler_of sa, Attended s i) (hon : OnSource source s.job) :
    Remembers cfg.md5_16 records server.store server.clock s.played := by
  intro k hk hlive
  rcases live_cases hs hlive with hbefore | ⟨i, call, expires_at, hstores, ha⟩ | hprobe
  · exact h.remembers hon k hk hbefore
  · obtain ⟨v, event, hv, hcall⟩ := hattended i (by rcases ha with rfl | ⟨failure, rfl⟩ <;> rfl)
    obtain ⟨i', call', hcall', hmade⟩ := h.made v event hv
    obtain rfl : i = i' := Option.some.inj (hcall.symm.trans hcall')
    obtain rfl : call = call' := Option.some.inj (hstores.found.symm.trans hmade.found)
    have hpassed := h.credited hon v event i call hv hcall hstores.found
      (by rw [hstores.marking]; rfl)
    have hkey := hstores.key
    rw [hmade.key_eq] at hkey
    exact hpassed.behind k (h.place_of_key hwindow hapart hon hv hk hkey)
  · exact absurd hprobe (computed_ne_probe _ _)

/-- **The replayer makes a step.** What it credits is passed. By the cases of a handler: an
apply is credited when its statement was carried out, and a duplicate when its key was found. -/
theorem Follows.server_step (h : Follows cfg source t₀ records hist events order s)
    (hwindow : WindowOf records hist order)
    (hapart : KeysApart cfg.md5_16 cfg.cat.table records events) {sa : Replayer.Action}
    {server : Server} (hs : Replayer.step cfg.md5_16 cfg.ttl s.server sa = some server)
    (hattended : ∀ i ∈ handler_of sa, Attended s i)
    (happly : ∀ i v event, sa = .apply i (.ok true) → OnSource source s.job →
      awaited (s.job.workers v).phase = some event → s.call v = some i →
      Passed hist order s.played event.message_id) :
    Follows cfg source t₀ records hist events order { s with server := server } := by
  refine ⟨h.accounts, h.holds, h.stored, h.genuine, fun v event hv => ?_, h.target,
    h.remembers_step hwindow hapart hs hattended, fun hon v event i call hv hcall hi hcredit => ?_⟩
  · obtain ⟨i, call, hcall, hmade⟩ := h.made v event hv
    obtain ⟨phase, hi⟩ := call_stays hs hmade.found
    exact ⟨i, _, hcall, hi, hmade.sent, hmade.event_eq, hmade.key_eq⟩
  · obtain ⟨call₀, hi₀, -, hcase⟩ := credited_cases hs hi hcredit
    rcases hcase with hbefore | ⟨-, hlive⟩ | ha
    · exact h.credited hon v event i call₀ hv hcall hi₀ hbefore
    · obtain ⟨i', call', hcall', hmade⟩ := h.made v event hv
      obtain rfl : i = i' := Option.some.inj (hcall.symm.trans hcall')
      obtain rfl : call₀ = call' := Option.some.inj (hi₀.symm.trans hmade.found)
      rw [hmade.key_eq] at hlive
      exact h.skip hwindow hon hv hlive
    · exact happly i v event ha hon hv hcall

/-! ### The job -/

/-- **The job makes a step.** What is answered is passed, and the entry after one that is
recorded is then in turn. Only the commit that records an entry has anything to show here. -/
theorem Follows.target_step (h : Follows cfg source t₀ records hist events order s)
    (hwindow : WindowOf records hist order) {a : Job.Action} {job : Job.Sys}
    (hjob : Job.step cfg.job s.job a = some job)
    (hanswer : ∀ v input event, a = .go v input → awaited (s.job.workers v).phase = some event →
      (input.success || input.was_duplicate) = true →
      Passed hist order s.played event.message_id) (hon : OnSource source s.job) :
    Target cfg.cat t₀ records hist order job s.db s.played := by
  have htarget := h.target hon
  refine ⟨htarget.partly, fun m hm => ?_, fun i m k hi hk hm hprev => ?_, fun v event hv => ?_⟩
  · rcases advanced_cases hjob hm with hm | ⟨v, event, hv, rfl⟩
    · exact htarget.advanced m hm
    · exact (htarget.answered v event hv).settled
  · cases i with
    | zero => exact htarget.next 0 m k hi hk (fun hmem => hm (advanced_grows hjob hmem)) (by simp)
    | succ j =>
        have hlt := Nat.lt_of_succ_lt (List.getElem?_eq_some_iff.mp hi).1
        have hj := List.getElem?_eq_getElem hlt
        rcases advanced_cases hjob (hprev j _ rfl hj) with hbefore | ⟨v, event, hv, hm'⟩
        · refine htarget.next (j + 1) m k hi hk (fun hmem => hm (advanced_grows hjob hmem)) ?_
          intro j' m' hj' hm'
          obtain rfl := Nat.succ.inj hj'
          rw [hj, Option.some.injEq] at hm'
          rwa [← hm']
        · -- the entry before it has just been recorded
          have hjlt : j < order.length := by
            rw [hwindow.length_eq]
            rwa [List.length_map] at hlt
          have hk' := List.getElem?_eq_getElem hjlt
          have hbehind := (htarget.answered v event hv).behind _
            (lookup_numbered hwindow.ordered (hm' ▸ hj) hk')
          exact (hwindow.turn.le_of_succ hk' hk).trans hbehind
  · -- answered before, or by this step
    rcases answered_cases hjob hv with hv | ⟨input, ha, hv, hdone⟩
    · exact htarget.answered v event hv
    · exact hanswer v input event ha hv hdone

/-- What every step of the job keeps: its own invariants, which are those of the accounting, and
what it has to do with calls that are made elsewhere. -/
theorem Follows.job_frame (h : Follows cfg source t₀ records hist events order s)
    {a : Job.Action} {job : Job.Sys} (hjob : Job.step cfg.job s.job a = some job)
    (halone : Job.AcquiredAlone s.job a) (hfixed : Job.FixedWindow cfg.job.window s.job a)
    (hold : Job.NoLateOld cfg.job.window s.job a) :
    Job.Accounts cfg.job.window job ∧ Holds cfg.job.window cfg.cat.table source hist job.world ∧
      Holds cfg.job.window (fun _ => true) source events job.world ∧ Genuine job :=
  ⟨h.accounts.step halone hfixed hold hjob,
    h.holds.step h.accounts.safe.sorted hfixed hjob,
    h.stored.step h.accounts.safe.sorted hfixed hjob, h.genuine.step h.accounts.safe hjob⟩

/-- A step of the job that calls nobody. -/
theorem Follows.job_step (h : Follows cfg source t₀ records hist events order s)
    (hwindow : WindowOf records hist order) {a : Job.Action} {job : Job.Sys}
    (hjob : Job.step cfg.job s.job a = some job) (halone : Job.AcquiredAlone s.job a)
    (hfixed : Job.FixedWindow cfg.job.window s.job a) (hold : Job.NoLateOld cfg.job.window s.job a)
    (hquiet : ∀ v input replay_job stream event attempt, a = .go v input →
      (s.job.workers v).phase ≠ .in_hand replay_job stream event (.ready attempt))
    (hanswer : OnSource source s.job → ∀ v input event, a = .go v input →
      awaited (s.job.workers v).phase = some event →
      (input.success || input.was_duplicate) = true →
      Passed hist order s.played event.message_id) :
    Follows cfg source t₀ records hist events order { s with job := job } := by
  obtain ⟨haccounts, hholds, hstored, hgenuine⟩ := h.job_frame hjob halone hfixed hold
  have hon : OnSource source job → OnSource source s.job := onSource_of_step h.accounts hjob
  have hwaits : ∀ {v event}, awaited (job.workers v).phase = some event →
      awaited (s.job.workers v).phase = some event := by
    intro v event hv
    rcases awaited_cases hjob hv with hv | ⟨input, replay_job, stream, attempt, ha, hph⟩
    · exact hv
    · exact absurd hph (hquiet v input replay_job stream event attempt ha)
  refine ⟨haccounts, hholds, hstored, hgenuine, fun v event hv => ?_,
    fun hon' => h.target_step hwindow hjob (hanswer (hon hon')) (hon hon'),
    fun hon' => h.remembers (hon hon'), fun hon' v event i call hv => ?_⟩
  · obtain ⟨i, call, hcall, hmade⟩ := h.made v event (hwaits hv)
    exact ⟨i, call, hcall, hmade.found, hmade.sent, hmade.event_eq, hmade.key_eq⟩
  · exact h.credited (hon hon') v event i call (hwaits hv)

/-- **A worker calls `ReplayEvent`.** The call is made for the event in hand, which becomes the
one that is waited for. -/
theorem Follows.send (h : Follows cfg source t₀ records hist events order s)
    (hwindow : WindowOf records hist order) {replay_job : Job.ReplayJob} {stream : Stream}
    {attempt : Nat} {server : Server} {job : Job.Sys}
    (hph : (s.job.workers v).phase = .in_hand replay_job stream event (.ready attempt))
    (hserver : Replayer.step cfg.md5_16 cfg.ttl s.server (.receive i ⟨event.payload, ""⟩)
      = some server)
    (hjob : Job.step cfg.job s.job (.go v {}) = some job) :
    Follows cfg source t₀ records hist events order
      { s with
        job := job,
        server := server,
        call := Function.update s.call v (some i),
        sent := Function.update s.sent i (some event) } := by
  obtain ⟨haccounts, hholds, hstored, hgenuine⟩ := h.job_frame hjob trivial trivial trivial
  have hon : OnSource source job → OnSource source s.job := onSource_of_step h.accounts hjob
  have hready : ∀ {u e}, awaited (s.job.workers u).phase = some e → False := by
    intro u e hu
    have heq : u = v := h.eq_of_busy (fun hidle => by rw [hidle] at hu; cases hu)
      (fun hidle => by rw [hidle] at hph; cases hph)
    rw [heq, hph] at hu
    cases hu
  -- it is the only call that a worker waits for
  have hwaits : ∀ {u e}, awaited (job.workers u).phase = some e → u = v ∧ e = event := by
    intro u e hu
    rcases awaited_cases hjob hu with hu | ⟨input, _, _, _, ha, hph'⟩
    · exact (hready hu).elim
    · obtain rfl : v = u := by
        injection ha
      rw [hph] at hph'
      injection hph' with _ _ hevent
      exact ⟨rfl, hevent.symm⟩
  cases Replayer.step_took hserver with
  | receive _ _ hfree =>
      refine ⟨haccounts, hholds, hstored, hgenuine, fun u e hu => ?_,
        fun hon' => h.target_step hwindow hjob (fun u _ e _ hu => (hready hu).elim) (hon hon'),
        fun hon' => h.remembers (hon hon'), fun _ u e j call hu hj hcall hcredit => ?_⟩
      · obtain ⟨rfl, rfl⟩ := hwaits hu
        exact ⟨i, _, Function.update_self .., Function.update_self .., Function.update_self ..,
          rfl, rfl⟩
      · obtain ⟨rfl, rfl⟩ := hwaits hu
        dsimp only at hj hcall
        rw [Function.update_self, Option.some.injEq] at hj
        rw [← hj, Function.update_self, Option.some.injEq] at hcall
        rw [← hcall] at hcredit
        cases hcredit

/-- What is asked of a step: one worker at a time, a window that does not change, handlers that
do nothing any more when their worker does not wait for them, and statements only of changes
that no later one is known of. -/
structure Orderly (cfg : Config V) (records : List ChangeRecord)
    (places : List (MessageId × Nat)) (s : Sys σ) (a : Action) : Prop where
  alone : ∀ j, a = .job j → Job.AcquiredAlone s.job j
  fixed : ∀ j, a = .job j → Job.FixedWindow cfg.job.window s.job j
  old : ∀ j, a = .job j → Job.NoLateOld cfg.job.window s.job j
  attended : ∀ i ∈ a.handler, Attended s i
  newest : ∀ i ∈ s.runs a, ∀ event ∈ s.sent i, Newest cfg records places s event

/-- **One step.** -/
theorem Follows.step (h : Follows cfg source t₀ records hist events order s)
    (hwindow : WindowOf records hist order)
    (hapart : KeysApart cfg.md5_16 cfg.cat.table records events) {a : Action}
    (hC : Orderly cfg records (numbered hist order) s a)
    (hs : Replication.step cfg (numbered hist order) s a = some t) :
    Follows cfg source t₀ records hist events order t := by
  cases step_took hs with
  -- a silent step of the job neither calls nor is answered
  | job a job hsilent hjob =>
      refine h.job_step hwindow hjob (hC.alone a rfl) (hC.fixed a rfl) (hC.old a rfl) ?_ ?_
      · rintro v input replay_job stream event attempt rfl hph
        simp only [silent, hph] at hsilent
        cases hsilent
      · rintro - v input event rfl hv hdone
        obtain ⟨replay_job, stream, attempt, hph⟩ := awaited_eq_some_iff.mp hv
        simp only [silent, hph, hdone] at hsilent
        cases hsilent
  | send v i replay_job stream event attempt server job hph hserver hjob =>
      exact h.send hwindow hph hserver hjob
  | answer v i call response job hready hcall hi hph hjob =>
      refine h.job_step hwindow hjob trivial trivial trivial ?_ ?_
      · intro v' input replay_job stream event attempt ha
        injection ha with hv
        exact hv ▸ hready replay_job stream event attempt
      · intro hon v' input event ha hv hdone
        injection ha with hv' hinput
        subst hv' hinput
        exact h.credited hon v event i call hv hcall hi (by rw [hph]; exact hdone)
  -- a statement is carried out: first the target follows, then the handler goes on
  | served a i call sa server hown hi hruns hhandler hserver =>
      have hattended := hC.attended i (handler_of_runs hruns)
      obtain ⟨v, event, hv, hcall⟩ := hattended
      obtain ⟨i', call', hcall', hmade⟩ := h.made v event hv
      obtain rfl : i = i' := Option.some.inj (hcall.symm.trans hcall')
      obtain ⟨hserved, hpassed⟩ := h.serve hwindow hv hcall hi
        (hC.newest i hruns event hmade.sent)
      refine hserved.server_step hwindow hapart hserver (fun j hj => ?_) ?_
      · exact hC.attended j (hhandler.trans hj)
      · rintro j u e rfl hon hu hj
        obtain ⟨-, rfl⟩ := h.eq_of_awaited hu hv
        exact hpassed hon
  | server a sa server hown hreceive happly hhandler hserver =>
      exact h.server_step hwindow hapart hserver (fun j hj => hC.attended j (hhandler.trans hj))
        fun i v event ha => absurd ha (happly i)

end

/-! ## Runs -/

variable {host : Host} {src : SourceTable V} {cfg : Config V} {source : SourceName} {world : World}
  {hist events : List (MessageId × ChangeRecord)} {store : DedupStore} {now : Int} {db : Table σ}
  {played order : List Nat} {records : List ChangeRecord} {s : Sys σ}

/-- The worker goes on by itself. -/
def go : Action := .job (.go 0 {})

end WalStream.Replication

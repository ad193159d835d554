/-
The replayer as a whole: any number of `ReplayEvent` calls at a time, over one dedup store.

A call is suspended at every `await`: at `exists`, at `apply`, and at the `INSERT` of
`mark_processed`. Nothing locks the key in between, so the steps of different calls
interleave freely, with those of `Health` and of the cleanup. Each `await` may also raise, and
a call may end at any of them without an answer: cancelled, because its client has gone, or
with the process. What `apply` does to the target is its own affair here: it returns what the
step says.

`ReplayEvent` in `Service` is one call by itself; `ReplayEvent_alone` says that a call nothing
comes between does what it does.
-/
import WalStream.Replayer.Service
import WalStream.Lib.Run
import Mathlib.Logic.Function.Basic

set_option autoImplicit false

namespace WalStream.Replayer

open Lib

/-! ## States and actions

A handler is suspended at each `await`, and any other call may run in between. The two stores it
talks to, the table of keys and the target, are steps of the system: whether a statement raises,
and whether it has taken effect then, is for the action to say. -/

/-- The idempotency key of a request: its own, or the computed one. -/
def ReplayRequest.key (md5_16 : String → String) (request : ReplayRequest) : String :=
  if request.idempotency_key = "" then compute_idempotency_key md5_16 request.event
  else request.idempotency_key

/-- Where a call is. A phase is an `await`, and carries what the code has computed by then and
will still use. -/
inductive CallPhase
  /-- `exists` is to answer. -/
  | checking
  /-- The key was not there; `apply` is to return. -/
  | applying
  /-- `apply` returned `True`; `mark_processed` is called. -/
  | applied
  /-- `mark_processed` has computed the expiry; its `INSERT` is to run. -/
  | marking (expires_at : Int)
  | answered (response : ReplayResponse)
  /-- It ended without an answer. -/
  | lost
deriving DecidableEq

/-- `apply` has returned `True` to the call, and its key is not stored yet. In between the event
is applied and nothing in the store says so. -/
def CallPhase.pending : CallPhase → Bool
  | .applied => true
  | .marking _ => true
  | _ => false

/-- The call has ended. -/
def CallPhase.ended : CallPhase → Bool
  | .answered _ => true
  | .lost => true
  | _ => false

/-- `apply` has returned `True` to the call, or it was answered with success or duplicate. -/
def CallPhase.credited : CallPhase → Bool
  | .applied => true
  | .marking _ => true
  | .answered response => response.success || response.was_duplicate
  | _ => false

/-- A call of `ReplayEvent`. -/
structure Call where
  event : ChangeRecord
  idemp_key : String
  phase : CallPhase

/-- What happened, for the results to speak about; no step reads it. Without it a result about
the past of a state could not be stated, since the store forgets. -/
inductive Happened
  /-- `exists` raised in call `i`. -/
  | check_raised (i : Nat)
  /-- `apply` returned `True` to call `i`, at a time. -/
  | applied (i : Nat) (key : String) (at_ms : Int)
  /-- `apply` returned `False` to call `i`, or raised. -/
  | not_applied (i : Nat)
  /-- Call `i` put the key into the store. -/
  | stored (i : Nat) (key : String)
  | answered (i : Nat) (key : String) (response : ReplayResponse)
deriving DecidableEq

/-- The calls, the store and the clock. Handlers are told apart by a number, which the code does
not have; a call that is sent again has another one. -/
structure Server where
  store : DedupStore
  /-- The calls received so far; a number is used once. -/
  calls : Nat → Option Call
  /-- The `check_and_mark` calls of `Health` under way, with the expiry they computed. -/
  probes : Nat → Option Int
  clock : Int
  /-- Newest first. -/
  log : List Happened

/-- A replayer that has just been started. -/
def Server.initial (store : DedupStore) (clock : Int) : Server :=
  { store := store, calls := fun _ => none, probes := fun _ => none, clock := clock, log := [] }

/-- The key `Health` probes the store with. -/
def health_check_probe : String := "health_check_probe"

/-- A computed key has a colon in it. -/
theorem computed_ne_probe (md5_16 : String → String) (event : ChangeRecord) :
    compute_idempotency_key md5_16 event ≠ health_check_probe := by
  intro heq
  have hcolon : ':' ∈ (compute_idempotency_key md5_16 event).toList := by
    simp [compute_idempotency_key, String.toList_append]
  rw [heq] at hcolon
  revert hcolon
  decide

inductive Action
  | tick (ms : Nat)
  | receive (i : Nat) (request : ReplayRequest)
  /-- `exists` answers, or raises. -/
  | check (i : Nat) (raises : Bool)
  /-- `apply` returns, or raises. -/
  | apply (i : Nat) (outcome : Except String Bool)
  /-- `mark_processed` reads the clock. -/
  | stamp (i : Nat)
  /-- Its `INSERT` returns; or it raises, having been carried out all the same or not. -/
  | mark (i : Nat) (failure : Option (String × Bool))
  /-- The call ends without an answer; an `INSERT` it sent may still be carried out. -/
  | lose (i : Nat) (carried_out : Bool)
  /-- `check_and_mark` of the probe key: the clock, and the `INSERT`, or an exception. -/
  | probe (j : Nat)
  | probe_insert (j : Nat)
  | probe_fail (j : Nat)
  /-- `cleanup_expired`. -/
  | cleanup

/-! ## Steps

Each step is the code between two awaits. What happened is written down beside it, newest first;
no step reads it. -/

namespace Server

/-- Write down what happened. -/
def note (s : Server) (h : Happened) : Server := { s with log := h :: s.log }

/-- A call moves on. -/
def set_phase (s : Server) (i : Nat) (call : Call) (phase : CallPhase) : Server :=
  { s with calls := Function.update s.calls i (some { call with phase := phase }) }

/-- A call returns its response. -/
def answer (s : Server) (i : Nat) (call : Call) (response : ReplayResponse) : Server :=
  (s.set_phase i call (.answered response)).note (.answered i call.idemp_key response)

/-- The `INSERT … ON CONFLICT DO UPDATE` of `mark_processed`, on the key as the column
takes it. -/
def insert (s : Server) (i : Nat) (stored : String) (expires_at : Int) : Server :=
  { s with store := s.store.set stored expires_at }.note (.stored i stored)

end Server

/-- The answers of `ReplayEvent`. -/
def dedup_error : ReplayResponse := ⟨false, "Deduplication check failed", false⟩

def duplicate_skipped : ReplayResponse := ⟨true, "duplicate_skipped", true⟩

def apply_error : ReplayResponse := ⟨false, "Failed to apply event to target", false⟩

def applied_response : ReplayResponse := ⟨true, "applied", false⟩

/-- The error of a key the column does not take. -/
def key_too_long : String := "value too long for type character varying(255)"

def step (md5_16 : String → String) (ttl : Int) (s : Server) : Action → Option Server
  | .tick ms => some { s with clock := s.clock + ms }
  | .receive i request =>
      match s.calls i with
      | some _ => none
      | none =>
          some { s with
            calls := Function.update s.calls i
              (some ⟨request.event, request.key md5_16, .checking⟩) }
  | .check i raises =>
      (s.calls i).bind fun call =>
        match call.phase with
        | .checking =>
            if raises then some ((s.note (.check_raised i)).answer i call dedup_error)
            else if key_exists s.store call.idemp_key s.clock then
              some (s.answer i call duplicate_skipped)
            else some (s.set_phase i call .applying)
        | _ => none
  | .apply i outcome =>
      (s.calls i).bind fun call =>
        match call.phase with
        | .applying =>
            match outcome with
            | .ok true =>
                some ((s.set_phase i call .applied).note (.applied i call.idemp_key s.clock))
            | .ok false => some ((s.note (.not_applied i)).answer i call apply_error)
            | .error text => some ((s.note (.not_applied i)).answer i call (error_response text))
        | _ => none
  | .stamp i =>
      (s.calls i).bind fun call =>
        match call.phase with
        | .applied => some (s.set_phase i call (.marking (s.clock + ttl)))
        | _ => none
  | .mark i failure =>
      (s.calls i).bind fun call =>
        match call.phase with
        | .marking expires_at =>
            match failure, stored_key call.idemp_key with
            | some (text, false), _ => some (s.answer i call (error_response text))
            | _, none => some (s.answer i call (error_response key_too_long))
            | none, some stored =>
                some ((s.insert i stored expires_at).answer i call applied_response)
            | some (text, true), some stored =>
                some ((s.insert i stored expires_at).answer i call (error_response text))
        | _ => none
  | .lose i carried_out =>
      (s.calls i).bind fun call =>
        match call.phase with
        | .answered _ => none
        | .lost => none
        | .marking expires_at =>
            match carried_out, stored_key call.idemp_key with
            | true, some stored => some ((s.insert i stored expires_at).set_phase i call .lost)
            | _, _ => some (s.set_phase i call .lost)
        | _ => some (s.set_phase i call .lost)
  | .probe j =>
      match s.probes j with
      | some _ => none
      | none => some { s with probes := Function.update s.probes j (some (s.clock + ttl)) }
  | .probe_insert j =>
      (s.probes j).map fun expires_at =>
        { s with
          -- `ON CONFLICT DO NOTHING`: an expired row of the key is in the way too
          store := match s.store.get? health_check_probe with
            | none => s.store.set health_check_probe expires_at
            | some _ => s.store,
          probes := Function.update s.probes j none }
  | .probe_fail j => some { s with probes := Function.update s.probes j none }
  | .cleanup => some { s with store := s.store.filter fun e => !decide (e.2 < s.clock) }

/-! ## What a step can do

One inversion of the whole step, and from it one for a single call, for the store and for the
log. The invariants in the modules above need one of the three each and none of the branches of
`step`. -/

/-- `Took md5_16 ttl s a t`: the step `a` out of `s`, with its guard, and the state after it.
Where an `await` can raise there is a constructor for that, and one for every way the code goes
on. -/
inductive Took (md5_16 : String → String) (ttl : Int) (s : Server) : Action → Server → Prop
  | tick (ms : Nat) : Took md5_16 ttl s (.tick ms) { s with clock := s.clock + ms }
  | receive (i : Nat) (request : ReplayRequest) (hfree : s.calls i = none) :
      Took md5_16 ttl s (.receive i request)
        { s with
          calls := Function.update s.calls i
            (some ⟨request.event, request.key md5_16, .checking⟩) }
  | check_raised (i : Nat) (call : Call) (hcall : s.calls i = some call)
      (hph : call.phase = .checking) :
      Took md5_16 ttl s (.check i true) ((s.note (.check_raised i)).answer i call dedup_error)
  | duplicate (i : Nat) (call : Call) (hcall : s.calls i = some call)
      (hph : call.phase = .checking)
      (hlive : key_exists s.store call.idemp_key s.clock = true) :
      Took md5_16 ttl s (.check i false) (s.answer i call duplicate_skipped)
  | passed (i : Nat) (call : Call) (hcall : s.calls i = some call)
      (hph : call.phase = .checking)
      (hdead : key_exists s.store call.idemp_key s.clock = false) :
      Took md5_16 ttl s (.check i false) (s.set_phase i call .applying)
  | applied (i : Nat) (call : Call) (hcall : s.calls i = some call)
      (hph : call.phase = .applying) :
      Took md5_16 ttl s (.apply i (.ok true))
        ((s.set_phase i call .applied).note (.applied i call.idemp_key s.clock))
  | not_applied (i : Nat) (outcome : Except String Bool) (response : ReplayResponse) (call : Call)
      (hcall : s.calls i = some call) (hph : call.phase = .applying)
      (houtcome : outcome ≠ .ok true) (hfail : response.success = false)
      (hdup : response.was_duplicate = false) :
      Took md5_16 ttl s (.apply i outcome) ((s.note (.not_applied i)).answer i call response)
  | stamp (i : Nat) (call : Call) (hcall : s.calls i = some call) (hph : call.phase = .applied) :
      Took md5_16 ttl s (.stamp i) (s.set_phase i call (.marking (s.clock + ttl)))
  | marked (i : Nat) (call : Call) (expires_at : Int) (stored : String)
      (hcall : s.calls i = some call) (hph : call.phase = .marking expires_at)
      (hkey : stored_key call.idemp_key = some stored) :
      Took md5_16 ttl s (.mark i none)
        ((s.insert i stored expires_at).answer i call applied_response)
  | mark_raised (i : Nat) (failure : Option (String × Bool)) (text : String) (call : Call)
      (expires_at : Int) (hcall : s.calls i = some call) (hph : call.phase = .marking expires_at)
      (hfailure : (∀ f ∈ failure, f.2 = true) → stored_key call.idemp_key = none) :
      Took md5_16 ttl s (.mark i failure) (s.answer i call (error_response text))
  | marked_raised (i : Nat) (text : String) (call : Call) (expires_at : Int) (stored : String)
      (hcall : s.calls i = some call) (hph : call.phase = .marking expires_at)
      (hkey : stored_key call.idemp_key = some stored) :
      Took md5_16 ttl s (.mark i (some (text, true)))
        ((s.insert i stored expires_at).answer i call (error_response text))
  | lost (i : Nat) (carried_out : Bool) (call : Call) (hcall : s.calls i = some call)
      (hph : call.phase.ended = false)
      (hnot : carried_out = true → ∀ expires_at, call.phase = .marking expires_at →
        stored_key call.idemp_key = none) :
      Took md5_16 ttl s (.lose i carried_out) (s.set_phase i call .lost)
  | marked_lost (i : Nat) (call : Call) (expires_at : Int) (stored : String)
      (hcall : s.calls i = some call) (hph : call.phase = .marking expires_at)
      (hkey : stored_key call.idemp_key = some stored) :
      Took md5_16 ttl s (.lose i true) ((s.insert i stored expires_at).set_phase i call .lost)
  | probe (j : Nat) :
      Took md5_16 ttl s (.probe j)
        { s with probes := Function.update s.probes j (some (s.clock + ttl)) }
  | probed (j : Nat) (expires_at : Int) (hnew : s.store.get? health_check_probe = none) :
      Took md5_16 ttl s (.probe_insert j)
        { s with
          store := s.store.set health_check_probe expires_at,
          probes := Function.update s.probes j none }
  | probed_again (j : Nat) :
      Took md5_16 ttl s (.probe_insert j) { s with probes := Function.update s.probes j none }
  | probe_fail (j : Nat) :
      Took md5_16 ttl s (.probe_fail j) { s with probes := Function.update s.probes j none }
  | cleanup :
      Took md5_16 ttl s .cleanup
        { s with store := s.store.filter fun e => !decide (e.2 < s.clock) }

section

variable {md5_16 : String → String} {ttl : Int} {s t : Server} {a : Action}

/-- **The inversion of `step`.** -/
theorem step_took (h : step md5_16 ttl s a = some t) : Took md5_16 ttl s a t := by
  cases a with
  | tick ms => cases h; exact .tick ms
  | receive i request =>
      simp only [step] at h
      split at h
      · cases h
      · rename_i hfree; cases h; exact .receive i request hfree
  | check i raises =>
      simp only [step, Option.bind_eq_some_iff] at h
      obtain ⟨call, hcall, h⟩ := h
      split at h
      · rename_i hph
        cases raises with
        | true => cases h; exact .check_raised i call hcall hph
        | false =>
            simp only [Bool.false_eq_true, if_false] at h
            split at h
            · rename_i hlive; cases h; exact .duplicate i call hcall hph hlive
            · rename_i hdead; cases h; exact .passed i call hcall hph (by simpa using hdead)
      · cases h
  | apply i outcome =>
      simp only [step, Option.bind_eq_some_iff] at h
      obtain ⟨call, hcall, h⟩ := h
      split at h
      · rename_i hph
        split at h
        · cases h; exact .applied i call hcall hph
        · cases h; exact .not_applied i _ _ call hcall hph (by simp) rfl rfl
        · cases h; exact .not_applied i _ _ call hcall hph (by simp) rfl rfl
      · cases h
  | stamp i =>
      simp only [step, Option.bind_eq_some_iff] at h
      obtain ⟨call, hcall, h⟩ := h
      split at h
      · rename_i hph; cases h; exact .stamp i call hcall hph
      · cases h
  | mark i failure =>
      simp only [step, Option.bind_eq_some_iff] at h
      obtain ⟨call, hcall, h⟩ := h
      split at h
      · rename_i expires_at hph
        split at h
        · rename_i text; cases h
          exact .mark_raised i _ text call expires_at hcall hph (by simp)
        · rename_i hkey; cases h
          exact .mark_raised i _ key_too_long call expires_at hcall hph fun _ => hkey
        · rename_i stored hkey; cases h
          exact .marked i call expires_at stored hcall hph hkey
        · rename_i text stored hkey; cases h
          exact .marked_raised i text call expires_at stored hcall hph hkey
      · cases h
  | lose i carried_out =>
      simp only [step, Option.bind_eq_some_iff] at h
      obtain ⟨call, hcall, h⟩ := h
      split at h
      · cases h
      · cases h
      · rename_i expires_at hph
        split at h
        · rename_i stored hkey; cases h
          exact .marked_lost i call expires_at stored hcall hph hkey
        · rename_i hnot; cases h
          refine .lost i _ call hcall (by rw [hph]; rfl) fun hout _ _ => ?_
          cases hkey : stored_key call.idemp_key with
          | none => rfl
          | some stored => exact absurd hkey (hnot stored hout)
      · rename_i hanswered hlost hmarking; cases h
        refine .lost i _ call hcall ?_ fun _ expires_at hph => absurd hph (hmarking expires_at)
        cases hph : call.phase with
        | answered response => exact absurd hph (hanswered response)
        | lost => exact absurd hph hlost
        | _ => rfl
  | probe j =>
      simp only [step] at h
      split at h
      · cases h
      · cases h; exact .probe j
  | probe_insert j =>
      simp only [step, Option.map_eq_some_iff] at h
      obtain ⟨expires_at, _, rfl⟩ := h
      split
      · rename_i hnew; exact .probed j expires_at hnew
      · exact .probed_again j
  | probe_fail j => cases h; exact .probe_fail j
  | cleanup => cases h; exact .cleanup

/-! ### What it can do to one call -/

/-- An entry after an update is the new one or was there before. -/
private theorem update_cases {f : Nat → Option Call} {i j : Nat} {c c' : Call}
    (h : Function.update f i (some c) j = some c') : (j = i ∧ c' = c) ∨ f j = some c' := by
  by_cases hji : j = i
  · subst hji
    rw [Function.update_self, Option.some.injEq] at h
    exact Or.inl ⟨rfl, h.symm⟩
  · rw [Function.update_of_ne hji] at h
    exact Or.inr h

/-- How a call moves in one step: it ends, its check passes, its `apply` succeeds, or it
computes the expiry. There is no way back, and every move is along the body of `ReplayEvent`. -/
inductive Moved (ttl : Int) (s t : Server) (a : Action) (i : Nat) (call : Call) :
    CallPhase → Prop
  | ended (phase : CallPhase) (hended : phase.ended = true) : Moved ttl s t a i call phase
  | passed (hph : call.phase = .checking) (ha : a = .check i false)
      (hdead : key_exists s.store call.idemp_key s.clock = false) :
      Moved ttl s t a i call .applying
  | applied (hph : call.phase = .applying) (ha : a = .apply i (.ok true))
      (hlog : t.log = .applied i call.idemp_key s.clock :: s.log) :
      Moved ttl s t a i call .applied
  | stamped (hph : call.phase = .applied) (ha : a = .stamp i) :
      Moved ttl s t a i call (.marking (s.clock + ttl))

/-- **What a step can do to a call**: nothing, its arrival, or one move. Whatever is to be shown
of a call along a run is shown by cases on this, without the store. -/
theorem call_cases (h : step md5_16 ttl s a = some t) {i : Nat} {call : Call}
    (hi : t.calls i = some call) :
    s.calls i = some call ∨
    (∃ request, a = .receive i request ∧ s.calls i = none ∧
      call = ⟨request.event, request.key md5_16, .checking⟩) ∨
    ∃ call₀ phase, s.calls i = some call₀ ∧ call = { call₀ with phase := phase } ∧
      Moved ttl s t a i call₀ phase := by
  -- every step but an arrival sets the phase of at most one call
  have hset : ∀ {j : Nat} {c : Call} {phase : CallPhase}, s.calls j = some c →
      Function.update s.calls j (some { c with phase := phase }) i = some call →
      (i = j → Moved ttl s t a j c phase) →
      s.calls i = some call ∨
      (∃ request, a = .receive i request ∧ s.calls i = none ∧
        call = ⟨request.event, request.key md5_16, .checking⟩) ∨
      ∃ call₀ phase, s.calls i = some call₀ ∧ call = { call₀ with phase := phase } ∧
        Moved ttl s t a i call₀ phase := by
    intro j c phase hc hupdate hmoved
    rcases update_cases hupdate with ⟨rfl, rfl⟩ | hsame
    · exact Or.inr (Or.inr ⟨c, phase, hc, rfl, hmoved rfl⟩)
    · exact Or.inl hsame
  cases step_took h with
  | receive j request hfree =>
      rcases update_cases hi with ⟨rfl, rfl⟩ | hsame
      · exact Or.inr (Or.inl ⟨request, rfl, hfree, rfl⟩)
      · exact Or.inl hsame
  | passed j c hcall hph hdead => exact hset hcall hi fun _ => .passed hph rfl hdead
  | applied j c hcall hph => exact hset hcall hi fun _ => .applied hph rfl rfl
  | stamp j c hcall hph => exact hset hcall hi fun _ => .stamped hph rfl
  | check_raised j c hcall hph => exact hset hcall hi fun _ => .ended _ rfl
  | duplicate j c hcall hph hlive => exact hset hcall hi fun _ => .ended _ rfl
  | not_applied j outcome response c hcall hph => exact hset hcall hi fun _ => .ended _ rfl
  | marked j c expires_at stored hcall hph hkey => exact hset hcall hi fun _ => .ended _ rfl
  | mark_raised j failure text c expires_at hcall hph => exact hset hcall hi fun _ => .ended _ rfl
  | marked_raised j text c expires_at stored hcall hph hkey =>
      exact hset hcall hi fun _ => .ended _ rfl
  | lost j carried_out c hcall hph => exact hset hcall hi fun _ => .ended _ rfl
  | marked_lost j c expires_at stored hcall hph hkey =>
      exact hset hcall hi fun _ => .ended _ rfl
  | _ => exact Or.inl hi

/-- A call keeps the event and the key it arrived with. -/
theorem call_origin (h : step md5_16 ttl s a = some t) {i : Nat} {call : Call}
    (hi : t.calls i = some call) :
    (∃ request, a = .receive i request ∧
      call = ⟨request.event, request.key md5_16, .checking⟩) ∨
    ∃ call₀, s.calls i = some call₀ ∧ call₀.event = call.event ∧
      call₀.idemp_key = call.idemp_key := by
  rcases call_cases h hi with hsame | ⟨request, ha, -, hcall⟩ | ⟨call₀, phase, hcall, rfl, -⟩
  · exact Or.inr ⟨call, hsame, rfl, rfl⟩
  · exact Or.inl ⟨request, ha, hcall⟩
  · exact Or.inr ⟨call₀, hcall, rfl, rfl⟩

/-- **What earns a call its credit**: it had it before, the key is there when it checks, or
`apply` returns `True`. -/
theorem credited_cases (h : step md5_16 ttl s a = some t) {i : Nat} {call : Call}
    (hi : t.calls i = some call) (hcredit : call.phase.credited = true) :
    ∃ call₀, s.calls i = some call₀ ∧ call₀.idemp_key = call.idemp_key ∧
      (call₀.phase.credited = true ∨
        (a = .check i false ∧ key_exists s.store call₀.idemp_key s.clock = true) ∨
        a = .apply i (.ok true)) := by
  -- the step sets the phase of one call; `hcase` says what that one had
  have hset : ∀ {j : Nat} {c : Call} {phase : CallPhase}, s.calls j = some c →
      Function.update s.calls j (some { c with phase := phase }) i = some call →
      (i = j → phase.credited = true → c.phase.credited = true ∨
        (a = .check i false ∧ key_exists s.store c.idemp_key s.clock = true) ∨
        a = .apply i (.ok true)) →
      ∃ call₀, s.calls i = some call₀ ∧ call₀.idemp_key = call.idemp_key ∧
        (call₀.phase.credited = true ∨
          (a = .check i false ∧ key_exists s.store call₀.idemp_key s.clock = true) ∨
          a = .apply i (.ok true)) := by
    intro j c phase hc hupdate hcase
    rcases update_cases hupdate with ⟨rfl, rfl⟩ | hsame
    · exact ⟨c, hc, rfl, hcase rfl hcredit⟩
    · exact ⟨call, hsame, rfl, Or.inl hcredit⟩
  cases step_took h with
  | receive j request hfree =>
      rcases update_cases hi with ⟨rfl, rfl⟩ | hsame
      · cases hcredit
      · exact ⟨call, hsame, rfl, Or.inl hcredit⟩
  | check_raised j c hcall hph => exact hset hcall hi fun _ hnot => by cases hnot
  | duplicate j c hcall hph hlive =>
      refine hset hcall hi fun hij _ => Or.inr (Or.inl ⟨?_, hlive⟩)
      rw [hij]
  | passed j c hcall hph hdead => exact hset hcall hi fun _ hnot => by cases hnot
  | applied j c hcall hph =>
      refine hset hcall hi fun hij _ => Or.inr (Or.inr ?_)
      rw [hij]
  | not_applied j outcome response c hcall hph houtcome hfail hdup =>
      refine hset hcall hi fun _ hnot => ?_
      rw [CallPhase.credited, hfail, hdup] at hnot
      cases hnot
  | stamp j c hcall hph => exact hset hcall hi fun _ _ => Or.inl (by rw [hph]; rfl)
  | marked j c expires_at stored hcall hph hkey =>
      exact hset hcall hi fun _ _ => Or.inl (by rw [hph]; rfl)
  | mark_raised j failure text c expires_at hcall hph hfailure =>
      exact hset hcall hi fun _ hnot => by cases hnot
  | marked_raised j text c expires_at stored hcall hph hkey =>
      exact hset hcall hi fun _ hnot => by cases hnot
  | lost j carried_out c hcall hph => exact hset hcall hi fun _ hnot => by cases hnot
  | marked_lost j c expires_at stored hcall hph hkey =>
      exact hset hcall hi fun _ hnot => by cases hnot
  | _ => exact ⟨call, hi, rfl, Or.inl hcredit⟩

/-! ### What it can do to the store and the log -/

/-- The call of a pending mark puts its key into the store. -/
structure Stores (s : Server) (i : Nat) (call : Call) (stored : String) (expires_at : Int) :
    Prop where
  found : s.calls i = some call
  marking : call.phase = .marking expires_at
  key : stored_key call.idemp_key = some stored

/-- **What a step can do to the store**: nothing, the `INSERT` of a mark, that of a probe where
the key is absent, or the removal of what has expired. Whatever is to be shown of the store is
by cases on this, without the calls. -/
theorem store_cases (h : step md5_16 ttl s a = some t) :
    t.store = s.store ∨
    (∃ i call stored expires_at, Stores s i call stored expires_at ∧
      (a = .lose i true ∨ ∃ failure, a = .mark i failure) ∧
      t.store = s.store.set stored expires_at ∧ .stored i stored ∈ t.log) ∨
    (∃ expires_at, s.store.get? health_check_probe = none ∧
      t.store = s.store.set health_check_probe expires_at) ∨
    t.store = s.store.filter fun e => !decide (e.2 < s.clock) := by
  cases step_took h with
  | marked i call expires_at stored hcall hph hkey =>
      exact Or.inr (Or.inl ⟨i, call, stored, expires_at, ⟨hcall, hph, hkey⟩,
        Or.inr ⟨_, rfl⟩, rfl, by simp [Server.answer, Server.note, Server.set_phase, Server.insert]⟩)
  | marked_raised i text call expires_at stored hcall hph hkey =>
      exact Or.inr (Or.inl ⟨i, call, stored, expires_at, ⟨hcall, hph, hkey⟩,
        Or.inr ⟨_, rfl⟩, rfl, by simp [Server.answer, Server.note, Server.set_phase, Server.insert]⟩)
  | marked_lost i call expires_at stored hcall hph hkey =>
      exact Or.inr (Or.inl ⟨i, call, stored, expires_at, ⟨hcall, hph, hkey⟩,
        Or.inl rfl, rfl, by simp [Server.note, Server.set_phase, Server.insert]⟩)
  | probed j expires_at hnew => exact Or.inr (Or.inr (Or.inl ⟨expires_at, hnew, rfl⟩))
  | cleanup => exact Or.inr (Or.inr (Or.inr rfl))
  | _ => exact Or.inl rfl

/-- The call has ended. -/
def Server.Ended (s : Server) (i : Nat) : Prop :=
  ∃ call, s.calls i = some call ∧ call.phase.ended = true

/-- What a step writes down. A failure and a stored key are written with the last step of
the call. -/
inductive Noted (s t : Server) (a : Action) : Happened → Prop
  | check_raised (i : Nat) (call : Call) (hcall : s.calls i = some call)
      (hph : call.phase = .checking) (hended : t.Ended i) : Noted s t a (.check_raised i)
  | applied (i : Nat) (call : Call) (hcall : s.calls i = some call)
      (hph : call.phase = .applying) (ha : a = .apply i (.ok true))
      (happlied : t.calls i = some { call with phase := .applied }) :
      Noted s t a (.applied i call.idemp_key s.clock)
  | not_applied (i : Nat) (call : Call) (hcall : s.calls i = some call)
      (hph : call.phase = .applying) (hended : t.Ended i) : Noted s t a (.not_applied i)
  | stored (i : Nat) (call : Call) (stored : String) (expires_at : Int)
      (hstores : Stores s i call stored expires_at)
      (ha : a = .lose i true ∨ ∃ failure, a = .mark i failure) (hended : t.Ended i) :
      Noted s t a (.stored i stored)
  | answered (i : Nat) (key : String) (response : ReplayResponse) :
      Noted s t a (.answered i key response)

/-- Whatever is on record was there before, or is written down by this step. -/
theorem log_cases (h : step md5_16 ttl s a = some t) {x : Happened} (hx : x ∈ t.log) :
    x ∈ s.log ∨ Noted s t a x := by
  -- a call that is answered has ended
  have hended : ∀ {f : Nat → Option Call} {i : Nat} {c : Call} {phase : CallPhase},
      phase.ended = true → ∃ call, Function.update f i (some { c with phase := phase }) i
        = some call ∧ call.phase.ended = true :=
    fun hphase => ⟨_, Function.update_self .., hphase⟩
  cases step_took h with
  | check_raised i call hcall hph =>
      rcases List.mem_cons.mp hx with rfl | hx
      · exact Or.inr (.answered ..)
      · rcases List.mem_cons.mp hx with rfl | hx
        · exact Or.inr (.check_raised i call hcall hph (hended rfl))
        · exact Or.inl hx
  | applied i call hcall hph =>
      rcases List.mem_cons.mp hx with rfl | hx
      · exact Or.inr (.applied i call hcall hph rfl (Function.update_self ..))
      · exact Or.inl hx
  | not_applied i outcome response call hcall hph =>
      rcases List.mem_cons.mp hx with rfl | hx
      · exact Or.inr (.answered ..)
      · rcases List.mem_cons.mp hx with rfl | hx
        · exact Or.inr (.not_applied i call hcall hph (hended rfl))
        · exact Or.inl hx
  | marked i call expires_at stored hcall hph hkey =>
      rcases List.mem_cons.mp hx with rfl | hx
      · exact Or.inr (.answered ..)
      · rcases List.mem_cons.mp hx with rfl | hx
        · exact Or.inr (.stored i call stored expires_at ⟨hcall, hph, hkey⟩
            (Or.inr ⟨_, rfl⟩) (hended rfl))
        · exact Or.inl hx
  | marked_raised i text call expires_at stored hcall hph hkey =>
      rcases List.mem_cons.mp hx with rfl | hx
      · exact Or.inr (.answered ..)
      · rcases List.mem_cons.mp hx with rfl | hx
        · exact Or.inr (.stored i call stored expires_at ⟨hcall, hph, hkey⟩
            (Or.inr ⟨_, rfl⟩) (hended rfl))
        · exact Or.inl hx
  | marked_lost i call expires_at stored hcall hph hkey =>
      rcases List.mem_cons.mp hx with rfl | hx
      · exact Or.inr (.stored i call stored expires_at ⟨hcall, hph, hkey⟩ (Or.inl rfl)
          (hended rfl))
      · exact Or.inl hx
  | duplicate | mark_raised =>
      rcases List.mem_cons.mp hx with rfl | hx
      · exact Or.inr (.answered ..)
      · exact Or.inl hx
  -- no other step writes anything down
  | _ => exact Or.inl hx

/-- A call that has ended stays as it is. -/
theorem ended_stays (h : step md5_16 ttl s a = some t) {i : Nat} {call : Call}
    (hi : s.calls i = some call) (hended : call.phase.ended = true) : t.calls i = some call := by
  -- the call a step moves has not ended
  have hother : ∀ {j : Nat} {c : Call} {o : Option Call}, s.calls j = some c →
      c.phase.ended = false → Function.update s.calls j o i = some call := by
    intro j c o hc hphase
    have hij : i ≠ j := by
      rintro rfl
      rw [hi, Option.some.injEq] at hc
      rw [← hc, hended] at hphase
      cases hphase
    rw [Function.update_of_ne hij, hi]
  cases step_took h with
  | receive j request hfree =>
      have hij : i ≠ j := by
        rintro rfl
        rw [hi] at hfree
        cases hfree
      dsimp only
      rw [Function.update_of_ne hij, hi]
  | check_raised j c hcall hph => exact hother hcall (by rw [hph]; rfl)
  | duplicate j c hcall hph hlive => exact hother hcall (by rw [hph]; rfl)
  | passed j c hcall hph hdead => exact hother hcall (by rw [hph]; rfl)
  | applied j c hcall hph => exact hother hcall (by rw [hph]; rfl)
  | not_applied j outcome response c hcall hph => exact hother hcall (by rw [hph]; rfl)
  | stamp j c hcall hph => exact hother hcall (by rw [hph]; rfl)
  | marked j c expires_at stored hcall hph hkey => exact hother hcall (by rw [hph]; rfl)
  | mark_raised j failure text c expires_at hcall hph => exact hother hcall (by rw [hph]; rfl)
  | marked_raised j text c expires_at stored hcall hph hkey =>
      exact hother hcall (by rw [hph]; rfl)
  | lost j carried_out c hcall hph => exact hother hcall hph
  | marked_lost j c expires_at stored hcall hph hkey => exact hother hcall (by rw [hph]; rfl)
  | _ => exact hi

/-- A call stays, with the event and the key it arrived with. -/
theorem call_stays (h : step md5_16 ttl s a = some t) {i : Nat} {call : Call}
    (hi : s.calls i = some call) : ∃ phase, t.calls i = some { call with phase := phase } := by
  -- the step sets the phase of one call
  have hset : ∀ {j : Nat} {c : Call} {phase : CallPhase}, s.calls j = some c →
      ∃ phase', Function.update s.calls j (some { c with phase := phase }) i
        = some { call with phase := phase' } := by
    intro j c phase hc
    by_cases hij : i = j
    · subst hij
      obtain rfl : call = c := Option.some.inj (hi.symm.trans hc)
      exact ⟨phase, Function.update_self ..⟩
    · exact ⟨call.phase, by rw [Function.update_of_ne hij, hi]⟩
  cases step_took h with
  | receive j request hfree =>
      have hij : i ≠ j := by
        rintro rfl
        rw [hi] at hfree
        cases hfree
      exact ⟨call.phase, by dsimp only; rw [Function.update_of_ne hij, hi]⟩
  | check_raised j c hcall | duplicate j c hcall | passed j c hcall | applied j c hcall
  | not_applied j outcome response c hcall | stamp j c hcall | marked j c expires_at stored hcall
  | mark_raised j failure text c expires_at hcall | marked_raised j text c expires_at stored hcall
  | lost j carried_out c hcall | marked_lost j c expires_at stored hcall => exact hset hcall
  | _ => exact ⟨call.phase, hi⟩

/-- Time does not go back. The server reads one clock. -/
theorem clock_le (h : step md5_16 ttl s a = some t) : s.clock ≤ t.clock := by
  cases step_took h with
  | tick ms => dsimp only; omega
  | _ => exact Int.le_refl _

/-- **What is live after a step** was so before, or its key is that of a mark, or the probe's. A
row may outlive its expiry, until the cleanup comes by; it is not live then. -/
theorem live_cases (h : step md5_16 ttl s a = some t) {key : String}
    (hlive : key_exists t.store key t.clock = true) :
    key_exists s.store key s.clock = true ∨
    (∃ i call expires_at, Stores s i call key expires_at ∧
      (a = .lose i true ∨ ∃ failure, a = .mark i failure)) ∨
    key = health_check_probe := by
  obtain ⟨expires_at, hget, hnow⟩ := key_exists_eq_true_iff.mp hlive
  replace hnow := Int.lt_of_le_of_lt (clock_le h) hnow
  rcases store_cases h with hsame | ⟨i, call, stored, expires, hstores, ha, hset, -⟩ |
    ⟨expires, -, hset⟩ | hfilter
  · rw [hsame] at hget
    exact Or.inl (key_exists_eq_true_iff.mpr ⟨expires_at, hget, hnow⟩)
  · rw [hset, Dict.get?_set] at hget
    split at hget
    · rename_i hkey
      exact Or.inr (Or.inl ⟨i, call, expires, hkey ▸ hstores, ha⟩)
    · exact Or.inl (key_exists_eq_true_iff.mpr ⟨expires_at, hget, hnow⟩)
  · rw [hset, Dict.get?_set] at hget
    split at hget
    · rename_i hkey
      exact Or.inr (Or.inr hkey)
    · exact Or.inl (key_exists_eq_true_iff.mpr ⟨expires_at, hget, hnow⟩)
  · rw [hfilter, Dict.get?_filter_eq_some_iff] at hget
    exact Or.inl (key_exists_eq_true_iff.mpr ⟨expires_at, hget.1, hnow⟩)

/-- What has happened stays written down. So a fact about the log that names an event of it is a
fact about every later state. -/
theorem log_suffix (h : step md5_16 ttl s a = some t) : s.log <:+ t.log := by
  cases step_took h with
  | check_raised | not_applied | marked | marked_raised =>
      exact (List.suffix_cons _ _).trans (List.suffix_cons _ _)
  | duplicate | applied | mark_raised | marked_lost => exact List.suffix_cons _ _
  | _ => exact List.suffix_refl _

end

/-! ## One call by itself

The interleaved model, run on one call alone, is the function `ReplayEvent` as it reads in the
source. This is what ties the phases to the code. -/

section

/-- The call has been answered, with that response and store. -/
def Server.Done (s : Server) (i : Nat) (store : DedupStore) (response : ReplayResponse) : Prop :=
  s.store = store ∧ ∃ call, s.calls i = some call ∧ call.phase = .answered response

attribute [local simp] exec step Server.answer Server.note Server.set_phase Server.insert
  Server.Done ReplayEvent ReplayRequest.key mark_processed

/-- **A call that nothing comes between** does what `ReplayEvent` does. -/
theorem ReplayEvent_alone {md5_16 : String → String} {ttl : Int} (s : Server) (i : Nat)
    (request : ReplayRequest) (calls : ReplayCalls) (hfree : s.calls i = none)
    (hcheck : ∀ now, calls.check = .ok now → now = s.clock)
    (hmark : ∀ now, calls.mark = .ok now → s.clock ≤ now) :
    ∃ acts t, exec (step md5_16 ttl) s acts = some t ∧
      t.Done i (ReplayEvent md5_16 ttl s.store request calls).1
        (ReplayEvent md5_16 ttl s.store request calls).2.response := by
  obtain ⟨check, apply, mark⟩ := calls
  match check with
  | .error text =>
      refine ⟨[.receive i request, .check i true], ?_⟩
      simp [hfree, dedup_error]
  | .ok now =>
      obtain rfl := hcheck now rfl
      by_cases hlive : key_exists s.store (request.key md5_16) s.clock = true
      · refine ⟨[.receive i request, .check i false], ?_⟩
        rw [ReplayRequest.key] at hlive
        simp [hfree, hlive, duplicate_skipped]
      · rw [ReplayRequest.key] at hlive
        match apply with
        | .error text =>
            refine ⟨[.receive i request, .check i false, .apply i (.error text)], ?_⟩
            simp [hfree, hlive]
        | .ok false =>
            refine ⟨[.receive i request, .check i false, .apply i (.ok false)], ?_⟩
            simp [hfree, hlive, apply_error]
        | .ok true =>
            match mark with
            | .error text =>
                refine ⟨[.receive i request, .check i false, .apply i (.ok true), .stamp i,
                  .mark i (some (text, false))], ?_⟩
                simp [hfree, hlive]
            | .ok now =>
                -- the time from the check to the mark passes between them
                obtain ⟨ms, rfl⟩ := Int.le.dest (hmark now rfl)
                refine ⟨[.receive i request, .check i false, .apply i (.ok true), .tick ms,
                  .stamp i, .mark i none], ?_⟩
                cases hkey : stored_key (request.key md5_16) with
                | none =>
                    rw [ReplayRequest.key] at hkey
                    simp [hfree, hlive, hkey, key_too_long]
                | some stored =>
                    rw [ReplayRequest.key] at hkey
                    simp [hfree, hlive, hkey, applied_response]

end

end WalStream.Replayer

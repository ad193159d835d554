/-
Requests of one client, and a Redis that fails and restarts under them.

The process keeps the hash of the script for as long as it lives. Redis keeps the script
itself in a cache that a restart empties, while the bucket's key may survive it. Requests are
in flight together: each of their awaited calls is a step of its own, and outages and
restarts fall between any two of them.

The property is about a request whose calls reach Redis. That `dispatch` opens the gate
while Redis is down is intended, and so is that it skips health probes and metrics.
-/
import WalStream.Middleware.RateLimit
import WalStream.Lib.Run
import Mathlib.Logic.Function.Basic

set_option autoImplicit false

namespace WalStream.Middleware

open Lib

/-! ## The system

Requests in flight, each between two awaited calls, with the process's cache of the hash and
Redis's cache of scripts beside them. Whether Redis is up is part of the state, so an outage can
begin and end in the middle of a request. -/

/-- One process and one Redis. `script_sha` is the process's cache and `scripts` is Redis's;
`limited_iff_script_cached` is about their falling apart. -/
structure Sys where
  /-- `self._script_sha`. -/
  script_sha : Option String
  /-- Redis answers. -/
  up : Bool
  /-- Redis's script cache, by hash. -/
  scripts : List String
  /-- The client's bucket. -/
  key : Option Key
  /-- The requests received so far; a number is used once. -/
  requests : Nat → Option Phase

/-- A process that has just been started, on a Redis in any state. -/
def Sys.start (up : Bool) (scripts : List String) (key : Option Key) : Sys :=
  { script_sha := none, up := up, scripts := scripts, key := key, requests := fun _ => none }

/-- What may happen, in any order: requests move on, each by one awaited call, and Redis fails
and comes back. -/
inductive Act
  | receive (i : Nat) (path : String)
  /-- `script_load`, as Redis takes it. -/
  | load (i : Nat)
  /-- `evalsha`, at a time of Redis and a time of the process. -/
  | evaluate (i : Nat) (clock now : ℚ)
  /-- `call_next` returns or raises. -/
  | respond (i : Nat) (response : Except Exc Response)
  /-- The task of the request is cancelled at the call it awaits. -/
  | cancel (i : Nat)
  | outage
  /-- Redis is reachable again, having lost nothing. -/
  | recover
  /-- Redis restarts, with the bucket's key or without. -/
  | restart (key_kept : Bool)

namespace Sys

/-- A request moves on. -/
def set_phase (s : Sys) (i : Nat) (phase : Phase) : Sys :=
  { s with requests := Function.update s.requests i (some phase) }

/-- `script_load` returns the hash, and the process caches it. -/
def store_script (s : Sys) (digest : String) : Sys :=
  { s with script_sha := some digest, scripts := digest :: s.scripts }

/-- The script is executed on the bucket. -/
def consume (s : Sys) (lim : Limits) (clock now : ℚ) : Sys × Reply :=
  let (key, reply) := execute lim s.key clock now
  ({ s with key := some key }, reply)

end Sys

/-- The error of a call to a Redis that is down. -/
def connection_error : Exc := .exception "ConnectionError"

/-- The error of `evalsha` for a hash that is not in the cache. -/
def no_script_error : Exc := .exception "NoScriptError"

def cancelled_error : Exc := .base "CancelledError"

/-- Every call raises. -/
def raising (e : Exc) : Calls :=
  { connect := .error e, script_load := .error e, evalsha := .error e,
    call_next := fun _ => .error e }

/-- `digest` is the hash of `_LUA_SCRIPT`. -/
def step (self : RateLimitMiddleware) (digest : String) (s : Sys) : Act → Option Sys
  | .receive i path =>
      match s.requests i with
      | some _ => none
      -- `from_url` does not connect, so nothing raises here
      | none => some (s.set_phase i (received s.script_sha path (.ok ())))
  | .load i =>
      match s.requests i with
      | some .loading =>
          if s.up then some ((s.store_script digest).set_phase i (loaded (.ok digest)))
          else some (s.set_phase i (loaded (.error connection_error)))
      | _ => none
  | .evaluate i clock now =>
      match s.requests i with
      | some (.evaluating sha) =>
          if ¬ s.up then some (s.set_phase i (replied self (.error connection_error)))
          else if sha ∉ s.scripts then some (s.set_phase i (replied self (.error no_script_error)))
          else
            let (s', reply) := s.consume self.limits clock now
            some (s'.set_phase i (replied self (.ok reply)))
      | _ => none
  | .respond i response =>
      match s.requests i with
      | some (.calling remaining invocations) =>
          some (s.set_phase i (responded self remaining invocations response))
      | _ => none
  | .cancel i =>
      match s.requests i with
      | some .loading => some (s.set_phase i (loaded (.error cancelled_error)))
      | some (.evaluating _) => some (s.set_phase i (replied self (.error cancelled_error)))
      | some (.calling remaining invocations) =>
          some (s.set_phase i (responded self remaining invocations (.error cancelled_error)))
      | _ => none
  | .outage => some { s with up := false }
  | .recover => some { s with up := true }
  | .restart key_kept =>
      some { s with up := true, scripts := [], key := if key_kept then s.key else none }

/-- The request was answered 429, and never reached the application. -/
def Phase.limited : Phase → Bool
  | .done (.ok response) 0 => response.status_code = 429
  | _ => false

def Sys.limited (s : Sys) (i : Nat) : Bool := (s.requests i).elim false Phase.limited

/-- Whether the script is in Redis's cache after the steps of a run (newest first): since the
last restart it was there from the start, or was loaded. -/
def script_cached (initially : Bool) : List (Sys × Act) → Bool
  | [] => initially
  | (s, .load _) :: tr => s.up || script_cached initially tr
  | (_, .restart _) :: _ => false
  | _ :: tr => script_cached initially tr

/-! ## Steps

The steps are first told apart by what they do to the two caches, since nearly all of them leave
both alone. -/

variable {self : RateLimitMiddleware} {digest : String} {s t : Sys} {a : Act}
variable {tr : List (Sys × Act)} {i : Nat}

@[simp] theorem set_phase_script_sha (s : Sys) (i : Nat) (phase : Phase) :
    (s.set_phase i phase).script_sha = s.script_sha := rfl

@[simp] theorem set_phase_scripts (s : Sys) (i : Nat) (phase : Phase) :
    (s.set_phase i phase).scripts = s.scripts := rfl

@[simp] theorem set_phase_requests_self (s : Sys) (i : Nat) (phase : Phase) :
    (s.set_phase i phase).requests i = some phase := Function.update_self ..

@[simp] theorem consume_scripts (s : Sys) (lim : Limits) (clock now : ℚ) :
    (s.consume lim clock now).1.scripts = s.scripts := rfl

@[simp] theorem consume_script_sha (s : Sys) (lim : Limits) (clock now : ℚ) :
    (s.consume lim clock now).1.script_sha = s.script_sha := rfl

/-- Only loading the script and a restart touch the two caches. -/
theorem step_keeps_caches (h : step self digest s a = some t) (hload : ∀ i, a ≠ .load i)
    (hrestart : ∀ key_kept, a ≠ .restart key_kept) :
    t.script_sha = s.script_sha ∧ t.scripts = s.scripts := by
  cases a with
  | load i => exact absurd rfl (hload i)
  | restart key_kept => exact absurd rfl (hrestart key_kept)
  -- an `EVALSHA` reads the cached script, and writes the buckets at most
  | evaluate i clock now =>
      simp only [step] at h
      split at h
      · split at h
        · cases h
          exact ⟨rfl, rfl⟩
        · split at h
          · cases h
            exact ⟨rfl, rfl⟩
          · cases h
            exact ⟨rfl, rfl⟩
      · cases h
  | receive i path =>
      simp only [step] at h
      split at h
      · cases h
      · cases h
        exact ⟨rfl, rfl⟩
  | respond i response =>
      simp only [step] at h
      split at h
      · cases h
        exact ⟨rfl, rfl⟩
      · cases h
  | cancel i =>
      simp only [step] at h
      split at h
      · cases h
        exact ⟨rfl, rfl⟩
      · cases h
        exact ⟨rfl, rfl⟩
      · cases h
        exact ⟨rfl, rfl⟩
      · cases h
  | outage =>
      cases h
      exact ⟨rfl, rfl⟩
  | recover =>
      cases h
      exact ⟨rfl, rfl⟩

/-- **What a step does to the two caches.** -/
theorem step_caches (h : step self digest s a = some t) :
    (∃ i, a = .load i ∧ s.up = true ∧ t.script_sha = some digest ∧
      t.scripts = digest :: s.scripts) ∨
    (∃ key_kept, a = .restart key_kept ∧ t.script_sha = s.script_sha ∧ t.scripts = []) ∨
    ((∀ key_kept, a ≠ .restart key_kept) ∧ (∀ i, a = .load i → s.up = false) ∧
      t.script_sha = s.script_sha ∧ t.scripts = s.scripts) := by
  by_cases hload : ∃ i, a = .load i
  · obtain ⟨i, rfl⟩ := hload
    simp only [step] at h
    split at h
    · by_cases hup : s.up = true
      · rw [if_pos hup] at h
        cases h
        exact Or.inl ⟨i, rfl, hup, rfl, rfl⟩
      · rw [if_neg hup] at h
        cases h
        exact Or.inr (Or.inr ⟨by simp, fun _ _ => by simpa using hup, rfl, rfl⟩)
    · cases h
  · by_cases hrestart : ∃ key_kept, a = .restart key_kept
    · obtain ⟨key_kept, rfl⟩ := hrestart
      cases h
      exact Or.inr (Or.inl ⟨key_kept, rfl, rfl, rfl⟩)
    · rw [not_exists] at hload hrestart
      exact Or.inr (Or.inr ⟨hrestart, fun i hi => absurd hi (hload i),
        step_keeps_caches h hload hrestart⟩)

/-! ## The hash a request holds

Only the hash of the script ever gets into the process, so a `NOSCRIPT` says that Redis has lost
the script, and nothing else. -/

/-- Of the ways a request can go on, only two lead to `evalsha`: the hash is in the process's
cache when it arrives, or it has just been loaded. Where the gate is opened the request goes to
the application, -/
theorem fail_open_not_evaluating (e : Exc) (n : Nat) (sha : String) :
    fail_open e n ≠ .evaluating sha := by
  cases e with
  | exception text => exact fun h => by cases h
  | base text => exact fun h => by cases h

/-- a request that arrives evaluates the hash that is cached, -/
theorem received_evaluating {script_sha : Option String} {path sha : String}
    (h : received script_sha path (.ok ()) = .evaluating sha) : script_sha = some sha := by
  unfold received at h
  split at h
  · cases h
  · cases script_sha with
    | none => cases h
    | some sha' =>
        cases h
        rfl

/-- one that has its reply is answered or passed on, -/
theorem replied_not_evaluating (r : Except Exc Reply) (sha : String) :
    replied self r ≠ .evaluating sha := by
  cases r with
  | error e => exact fail_open_not_evaluating e 0 sha
  | ok reply =>
      by_cases hallowed : reply.allowed = true
      · simp only [replied, if_pos hallowed]
        exact fun h => by cases h
      · simp only [replied, if_neg hallowed]
        cases too_many_requests self with
        | ok response => exact fun h => by cases h
        | error e => exact fail_open_not_evaluating e 0 sha

/-- and one the application has answered has nothing to evaluate any more. -/
theorem responded_not_evaluating (remaining : Option Int) (n : Nat) (r : Except Exc Response)
    (sha : String) : responded self remaining n r ≠ .evaluating sha := by
  unfold responded
  split
  · exact fun h => by cases h
  · exact fail_open_not_evaluating _ n sha
  · exact fun h => by cases h

/-- A call that raises loads nothing. -/
theorem raising_loads (e : Exc) (sha : String) (h : (raising e).script_load = .ok sha) :
    sha = digest := by
  cases h

/-- A request that awaits a call is handed the call's answer, and no other request changes. -/
theorem answered_request (calls : Calls) {s' : Sys} {j : Nat} {phase : Phase}
    (hrequests : s'.requests = s.requests) (hphase : s.requests j = some phase)
    (hload : ∀ sha, calls.script_load = .ok sha → sha = digest) (i : Nat) :
    (s'.set_phase j (phase.next self calls)).requests i = s.requests i ∨
    (∃ path, s.requests i = none ∧ (s'.set_phase j (phase.next self calls)).requests i
      = some (received s.script_sha path (.ok ()))) ∨
    ∃ phase' calls', s.requests i = some phase' ∧
      (s'.set_phase j (phase.next self calls)).requests i = some (phase'.next self calls') ∧
      ∀ sha, calls'.script_load = .ok sha → sha = digest := by
  by_cases hij : i = j
  · subst hij
    exact Or.inr (Or.inr ⟨phase, calls, hphase, set_phase_requests_self .., hload⟩)
  · left
    simp only [Sys.set_phase, Function.update_of_ne hij, hrequests]

/-- **What a step does to a request**: nothing, or it receives it, or it hands it the answer
of the call it awaits, as `dispatch` does. -/
theorem step_request (h : step self digest s a = some t) (i : Nat) :
    t.requests i = s.requests i ∨
    (∃ path, s.requests i = none ∧
      t.requests i = some (received s.script_sha path (.ok ()))) ∨
    ∃ phase calls, s.requests i = some phase ∧ t.requests i = some (phase.next self calls) ∧
      ∀ sha, calls.script_load = .ok sha → sha = digest := by
  cases a with
  | receive j path =>
      simp only [step] at h
      split at h
      · cases h
      · rename_i hnone
        cases h
        by_cases hij : i = j
        · subst hij
          exact Or.inr (Or.inl ⟨path, hnone, set_phase_requests_self ..⟩)
        · left
          simp only [Sys.set_phase, Function.update_of_ne hij]
  | load j =>
      simp only [step] at h
      split at h
      · rename_i hphase
        split at h
        · cases h
          -- Redis answers with the digest of what it was given
          have hload : ∀ sha, (Except.ok digest : Except Exc String) = .ok sha → sha = digest :=
            fun sha hsha => (Except.ok.inj hsha).symm
          exact answered_request { raising connection_error with script_load := .ok digest } rfl
            hphase hload i
        · cases h
          exact answered_request (raising connection_error) rfl hphase
            (raising_loads connection_error) i
      · cases h
  -- it is down, or it does not know the script, or it runs it
  | evaluate j clock now =>
      simp only [step] at h
      split at h
      · rename_i sha hphase
        split at h
        · cases h
          exact answered_request (raising connection_error) rfl hphase
            (raising_loads connection_error) i
        · split at h
          · cases h
            exact answered_request (raising no_script_error) rfl hphase
              (raising_loads no_script_error) i
          · cases h
            exact answered_request { raising connection_error with
              evalsha := .ok (s.consume self.limits clock now).2 } rfl hphase
                (raising_loads connection_error) i
      · cases h
  -- the application's answer, which is passed on
  | respond j response =>
      simp only [step] at h
      split at h
      · rename_i hphase
        cases h
        exact answered_request { raising connection_error with call_next := fun _ => response }
          rfl hphase (raising_loads connection_error) i
      · cases h
  -- a request can be cancelled at each of its three calls
  | cancel j =>
      simp only [step] at h
      split at h
      · rename_i hphase
        cases h
        exact answered_request (raising cancelled_error) rfl hphase
          (raising_loads cancelled_error) i
      · rename_i hphase
        cases h
        exact answered_request (raising cancelled_error) rfl hphase
          (raising_loads cancelled_error) i
      · rename_i hphase
        cases h
        exact answered_request (raising cancelled_error) rfl hphase
          (raising_loads cancelled_error) i
      · cases h
  | outage =>
      cases h
      exact Or.inl rfl
  | recover =>
      cases h
      exact Or.inl rfl
  | restart key_kept =>
      cases h
      exact Or.inl rfl

/-- A request comes to await `evalsha` with the hash it has just loaded. -/
theorem next_evaluating {calls : Calls} {phase : Phase} {sha : String}
    (h : phase.next self calls = .evaluating sha) : calls.script_load = .ok sha := by
  cases phase with
  | loading =>
      cases hload : calls.script_load with
      | ok sha' =>
          simp only [Phase.next, hload, loaded, Phase.evaluating.injEq] at h
          rw [h]
      | error e =>
          simp only [Phase.next, hload] at h
          exact absurd h (fail_open_not_evaluating e 0 sha)
  | evaluating sha' => exact absurd h (replied_not_evaluating _ sha)
  | calling remaining n => exact absurd h (responded_not_evaluating remaining n _ sha)
  | done result n => cases h

/-- Every hash in the process is the script's. -/
structure Hashed (digest : String) (s : Sys) : Prop where
  cached : ∀ sha, s.script_sha = some sha → sha = digest
  held : ∀ i sha, s.requests i = some (.evaluating sha) → sha = digest

/-- The only hash that gets into the process comes from `script_load`, and Redis computes it
from the script. So a request never evaluates anything else. -/
theorem Hashed.step (hs : Hashed digest s) (h : step self digest s a = some t) :
    Hashed digest t := by
  constructor
  · intro sha hsha
    rcases step_caches h with ⟨i, -, -, hnew, -⟩ | ⟨k, -, hold, -⟩ | ⟨-, -, hold, -⟩
    · rw [hnew] at hsha
      exact (Option.some.inj hsha).symm
    · exact hs.cached sha (hold ▸ hsha)
    · exact hs.cached sha (hold ▸ hsha)
  · intro i sha hi
    rcases step_request h i with hsame | ⟨path, -, hnew⟩ | ⟨phase, calls, -, hnext, hload⟩
    · exact hs.held i sha (hsame ▸ hi)
    · rw [hnew, Option.some.injEq] at hi
      exact hs.cached sha (received_evaluating hi)
    · rw [hnext, Option.some.injEq] at hi
      exact hload sha (next_evaluating hi)

/-! ## Runs

The trace tells whether the script is in the cache: it was loaded or was there from the start,
and there has been no restart since. -/

section Runs

variable {up : Bool} {scripts : List String} {key : Option Key}

/-- This holds from the start of the process, whatever Redis was before. -/
theorem hashed_of_run (hrun : Run (step self digest) (Sys.start up scripts key) tr s) :
    Hashed digest s := by
  induction hrun with
  | nil => exact ⟨fun sha h => (by cases h), fun i sha h => by cases h⟩
  | cons _ h ih => exact ih.step h

/-- The trace tells whether the script is in Redis's cache. -/
theorem mem_scripts_iff (hrun : Run (step self digest) (Sys.start up scripts key) tr s) :
    digest ∈ s.scripts ↔ script_cached (decide (digest ∈ scripts)) tr = true := by
  induction hrun with
  | nil => simp [Sys.start, script_cached]
  | @cons tr s t a _ h ih =>
      rcases step_caches h with ⟨i, rfl, hup, -, hscripts⟩ | ⟨k, rfl, -, hscripts⟩ |
        ⟨hrestart, hload, -, hscripts⟩
      · rw [hscripts]
        simp [script_cached, hup]
      · rw [hscripts]
        simp [script_cached]
      · rw [hscripts, ih]
        cases a with
        | load i => simp [script_cached, hload i rfl]
        | restart k => exact absurd rfl (hrestart k)
        | _ => simp [script_cached]

/-! ## Requests that reach Redis

A request that reaches Redis is limited by the script or let through by the handler, and which
of the two it is depends on the cache alone. -/

/-- A denied request is answered 429, unless the rate is zero. -/
theorem replied_denied {reply : Reply} (hrate : self.refill_rate ≠ 0)
    (h : reply.allowed = false) : (replied self (.ok reply)).limited = true := by
  simp [replied, h, too_many_requests, hrate, Phase.limited]

/-- An opened gate limits nobody. -/
theorem fail_open_not_limited (e : Exc) (n : Nat) : (fail_open e n).limited = false := by
  cases e with
  | exception text => rfl
  | base text => rfl

/-- The loading of the script, where Redis is up. -/
theorem step_load (hphase : s.requests i = some .loading) (hup : s.up = true) :
    step self digest s (.load i)
      = some ((s.store_script digest).set_phase i (.evaluating digest)) := by
  simp only [step, hphase, if_pos hup]
  rfl

/-- A script that is in the cache is executed, and its reply is what decides. -/
theorem step_evaluate {sha : String} {clock now : ℚ}
    (hphase : s.requests i = some (.evaluating sha)) (hup : s.up = true) (hmem : sha ∈ s.scripts) :
    step self digest s (.evaluate i clock now)
      = some ((s.consume self.limits clock now).1.set_phase i
          (replied self (.ok (s.consume self.limits clock now).2))) := by
  simp only [step, hphase, hup, hmem, not_true_eq_false, if_false]

/-- One that is not is reported by `NOSCRIPT`. The handler takes that for an outage and opens
the gate, and the hash stays in the process, so the next request meets the same error. -/
theorem step_evaluate_missing {sha : String} {clock now : ℚ}
    (hphase : s.requests i = some (.evaluating sha)) (hup : s.up = true) (hmem : sha ∉ s.scripts) :
    step self digest s (.evaluate i clock now)
      = some (s.set_phase i (fail_open no_script_error 0)) := by
  simp only [step, hphase, hup, hmem, not_true_eq_false, not_false_eq_true, if_false, if_true]
  rfl

/-- **A restart of Redis disables the limiter for good, and nothing else does.** Of every
request whose calls reach Redis: `script_load` returns; and when the script's turn comes and
the client's bucket holds less than a token, the request is answered 429, never reaching the
application, exactly if the script is still in Redis's cache. -/
theorem limited_iff_script_cached (hlim : self.limits.Valid)
    (hrun : Run (step self digest) (Sys.start up scripts key) tr s) (hup : s.up = true) (i : Nat) :
    (s.requests i = some .loading →
      ∃ t sha, step self digest s (.load i) = some t ∧ t.requests i = some (.evaluating sha)) ∧
    ∀ sha clock now, s.requests i = some (.evaluating sha) →
      refilled self.limits (Key.read s.key clock) now < 1 →
      ∃ t, step self digest s (.evaluate i clock now) = some t ∧
        (t.limited i = true ↔ script_cached (decide (digest ∈ scripts)) tr = true) := by
  constructor
  · intro hphase
    exact ⟨_, digest, step_load hphase hup, set_phase_requests_self ..⟩
  · intro sha clock now hphase hshort
    obtain rfl := (hashed_of_run hrun).held i sha hphase
    rw [← mem_scripts_iff hrun]
    by_cases hmem : sha ∈ s.scripts
    · refine ⟨_, step_evaluate hphase hup hmem, ?_⟩
      have hdenied : (s.consume self.limits clock now).2.allowed = false := by
        have h := script_allowed self.limits (Key.read s.key clock) now
        rw [decide_eq_false (not_le.mpr hshort)] at h
        exact h
      have hrate : self.refill_rate ≠ 0 := hlim.rate_pos.ne'
      simp only [Sys.limited, set_phase_requests_self, Option.elim_some, hmem, iff_true]
      exact replied_denied hrate hdenied
    · refine ⟨_, step_evaluate_missing hphase hup hmem, ?_⟩
      simp only [Sys.limited, set_phase_requests_self, Option.elim_some, hmem, iff_false]
      rw [fail_open_not_limited]
      exact Bool.false_ne_true

end Runs

/-- Buckets of one token. -/
def oneToken : RateLimitMiddleware := { capacity := 1, refill_rate := 1 }

/-- The limits of the sample are ones the settings allow. -/
theorem oneToken_valid : oneToken.limits.Valid := ⟨by decide +kernel, by decide +kernel⟩

/-- Request 0 loads the script and uses up the token. -/
def spentActs : List Act :=
  [.receive 0 "/api/v1/jobs", .load 0, .evaluate 0 0 0,
    .respond 0 (.ok { status_code := 200, headers := Dict.empty, content := "[]" })]

/-- Without a restart the second request finds the bucket empty and is limited. -/
theorem limited_iff_script_cached_spent : ∃ tr s t,
    Run (step oneToken "sha") (Sys.start true [] none) tr s ∧
      step oneToken "sha" s (.evaluate 1 0 0) = some t ∧
      (t.limited 1 = true ↔ script_cached (decide ("sha" ∈ ([] : List String))) tr = true) := by
  have hspent : ∃ tr s, Run (step oneToken "sha") (Sys.start true [] none) tr s ∧ s.up = true ∧
      s.requests 1 = some (.evaluating "sha") ∧
      refilled oneToken.limits (Key.read s.key 0) 0 < 1 :=
    exists_run_of_exec (spentActs ++ [.receive 1 "/api/v1/jobs"]) (by decide +kernel)
  obtain ⟨tr, s, hrun, hup, hphase, hshort⟩ := hspent
  obtain ⟨t, hstep, hlimited⟩ :=
    (limited_iff_script_cached oneToken_valid hrun hup 1).2 "sha" 0 0 hphase hshort
  exact ⟨tr, s, t, hrun, hstep, hlimited⟩

/-- After a restart that keeps the bucket, request 1 arrives and is let through. -/
theorem restart_opens_limiter : ¬ ∀ (self : RateLimitMiddleware) (digest : String) (up : Bool)
    (scripts : List String) (key : Option Key) (tr : List (Sys × Act)) (s t : Sys) (i : Nat)
    (sha : String) (clock now : ℚ),
    self.limits.Valid → Run (step self digest) (Sys.start up scripts key) tr s → s.up = true →
    s.requests i = some (.evaluating sha) →
    refilled self.limits (Key.read s.key clock) now < 1 →
    step self digest s (.evaluate i clock now) = some t → t.limited i = true := by
  intro h
  have hspent : ∃ tr s, Run (step oneToken "sha") (Sys.start true [] none) tr s ∧ s.up = true ∧
      s.requests 1 = some (.evaluating "sha") ∧
      refilled oneToken.limits (Key.read s.key 0) 0 < 1 ∧
      (step oneToken "sha" s (.evaluate 1 0 0)).map (fun t => t.limited 1) = some false :=
    exists_run_of_exec (spentActs ++ [.restart true, .receive 1 "/api/v1/jobs"])
      (by decide +kernel)
  obtain ⟨tr, s, hrun, hup, hphase, hshort, hopen⟩ := hspent
  obtain ⟨t, hstep, hfalse⟩ := Option.map_eq_some_iff.mp hopen
  have htrue := h oneToken "sha" true [] none tr s t 1 "sha" 0 0 oneToken_valid hrun hup hphase
    hshort hstep
  rw [htrue] at hfalse
  cases hfalse

end WalStream.Middleware

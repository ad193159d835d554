/-
`RateLimitMiddleware.dispatch`: one request, between its awaited calls.

`dispatch` waits for four calls in turn: `script_load` if no hash is cached, `evalsha`, and
`call_next`, once in the `try` block and once more in its handler. A `Phase` is where it
waits, and each function below takes what the call it waits for returned or raised. The
handler `except Exception` encloses everything from the connection to the headers of the
response; a `CancelledError` is no `Exception` and passes it.

What the calls do is not decided here: `dispatch` runs a request on given answers, `System`
runs many of them on a Redis.
-/
import WalStream.Middleware.TokenBucket
import WalStream.Lib.Dict
import Mathlib.Logic.Function.Iterate

set_option autoImplicit false

namespace WalStream.Middleware

open Lib

/-! ## Requests and responses -/

/-- What a call can raise. -/
inductive Exc
  /-- An `Exception`. -/
  | exception (text : String)
  /-- A `BaseException` that is none, such as `CancelledError`. -/
  | base (text : String)
deriving DecidableEq

structure Response where
  status_code : Nat
  headers : Dict String String
  content : String
deriving DecidableEq

/-- The paths the limiter skips. -/
def exempt (path : String) : Bool :=
  "/api/v1/health".toList.isPrefixOf path.toList || "/metrics".toList.isPrefixOf path.toList

/-- `RateLimitMiddleware`, less the client it caches. -/
structure RateLimitMiddleware where
  capacity : Int
  refill_rate : ℚ

/-- The arguments of the script. -/
def RateLimitMiddleware.limits (self : RateLimitMiddleware) : Limits :=
  { capacity := self.capacity, rate := self.refill_rate }

/-- Python's `int` of a number. -/
def int (q : ℚ) : Int := if 0 ≤ q then ⌊q⌋ else ⌈q⌉

/-- The response to a request that is denied. Building its headers divides by the rate. -/
def too_many_requests (self : RateLimitMiddleware) : Except Exc Response :=
  if self.refill_rate = 0 then .error (.exception "ZeroDivisionError")
  else .ok {
    status_code := 429,
    headers := Dict.ofPairs [
      ("Retry-After", toString (int (1 / self.refill_rate) + 1)),
      ("X-RateLimit-Limit", toString self.capacity),
      ("X-RateLimit-Remaining", "0")],
    content := "Rate limit exceeded" }

/-- The two headers of a response that is let through. -/
def with_headers (self : RateLimitMiddleware) (remaining : Int) (response : Response) : Response :=
  { response with
    headers := (response.headers.set "X-RateLimit-Limit" (toString self.capacity)).set
      "X-RateLimit-Remaining" (toString remaining) }

/-! ## The phases

`dispatch` between its awaited calls. Every answer of a call leads to the next phase, so the
code is a function on phases, and a request is its iteration. -/

/-- Where a request is. The number counts the invocations of `call_next`. -/
inductive Phase
  /-- Awaiting `script_load`. -/
  | loading
  /-- Awaiting `evalsha`. -/
  | evaluating (sha : String)
  /-- Awaiting `call_next`: in the `try` block, with what remains, or outside it. -/
  | calling (remaining : Option Int) (invocations : Nat)
  | done (result : Except Exc Response) (invocations : Nat)
deriving DecidableEq

/-- The handler: an `Exception` opens the gate, whatever raised it. -/
def fail_open (e : Exc) (invocations : Nat) : Phase :=
  match e with
  | .exception _ => .calling none (invocations + 1)
  | .base _ => .done (.error e) invocations

/-- Up to the first call, `script_sha` being what the process has cached. -/
def received (script_sha : Option String) (path : String) (connect : Except Exc Unit) : Phase :=
  if exempt path then .calling none 1
  else
    match connect, script_sha with
    | .error e, _ => fail_open e 0
    | .ok _, none => .loading
    | .ok _, some sha => .evaluating sha

/-- After `script_load`. -/
def loaded : Except Exc String → Phase
  | .ok sha => .evaluating sha
  | .error e => fail_open e 0

/-- After `evalsha`. -/
def replied (self : RateLimitMiddleware) : Except Exc Reply → Phase
  | .error e => fail_open e 0
  | .ok reply =>
      if reply.allowed then .calling (some reply.remaining) 1
      else
        match too_many_requests self with
        | .ok response => .done (.ok response) 0
        | .error e => fail_open e 0

/-- After `call_next`. -/
def responded (self : RateLimitMiddleware) (remaining : Option Int) (invocations : Nat)
    (response : Except Exc Response) : Phase :=
  match remaining, response with
  | some remaining, .ok response => .done (.ok (with_headers self remaining response)) invocations
  -- the application's own exception is taken for one of Redis
  | some _, .error e => fail_open e invocations
  | none, response => .done response invocations

/-! ## A request on given answers

The same with all answers given in advance, up to the end of the request. -/

/-- What the calls of a request return or raise; `call_next` has an answer for each of its
invocations. -/
structure Calls where
  connect : Except Exc Unit
  script_load : Except Exc String
  evalsha : Except Exc Reply
  call_next : Nat → Except Exc Response

def Phase.next (self : RateLimitMiddleware) (calls : Calls) : Phase → Phase
  | .loading => loaded calls.script_load
  | .evaluating _ => replied self calls.evalsha
  | .calling remaining invocations =>
      responded self remaining invocations (calls.call_next invocations)
  | .done result invocations => .done result invocations

/-- `dispatch`: at most four calls are awaited. -/
def dispatch (self : RateLimitMiddleware) (script_sha : Option String) (path : String)
    (calls : Calls) : Phase :=
  (Phase.next self calls)^[4] (received script_sha path calls.connect)

/-- The script's reply, if it is executed for the request. -/
def script_reply (script_sha : Option String) (path : String) (calls : Calls) : Option Reply :=
  if exempt path then none
  else
    match calls.connect, script_sha, calls.script_load, calls.evalsha with
    | .ok _, some _, _, .ok reply => some reply
    | .ok _, none, .ok _, .ok reply => some reply
    | _, _, _, _ => none

/-! ## What `dispatch` returns

The iteration is carried out once and for all: from the reply of the script on, and up to it.
What follows is about the results and not about the phases. -/

variable {self : RateLimitMiddleware} {script_sha : Option String} {path : String} {calls : Calls}

theorem iterate_done (k : Nat) (result : Except Exc Response) (n : Nat) :
    (Phase.next self calls)^[k] (.done result n) = .done result n :=
  Function.iterate_fixed rfl k

/-- The handler calls the application once more, and that is the end of it. -/
theorem fail_open_settles (e : Exc) (n k : Nat) :
    (Phase.next self calls)^[k + 1] (fail_open e n) =
      match e with
      | .exception _ => .done (calls.call_next (n + 1)) (n + 1)
      | .base text => .done (.error (.base text)) n := by
  cases e with
  | exception text => exact iterate_done k _ _
  | base text => exact iterate_done (k + 1) _ _

/-- From the reply on: what the script allows goes to the application, what it denies does
not, unless building the response raises. -/
theorem replied_settles (reply : Reply) (k : Nat) :
    (Phase.next self calls)^[k + 2] (replied self (.ok reply)) =
      if reply.allowed then
        match calls.call_next 1 with
        | .ok response => .done (.ok (with_headers self reply.remaining response)) 1
        | .error (.exception _) => .done (calls.call_next 2) 2
        | .error (.base text) => .done (.error (.base text)) 1
      else
        match too_many_requests self with
        | .ok response => .done (.ok response) 0
        | .error _ => .done (calls.call_next 1) 1 := by
  -- allowed: the application is called, and once more if its exception is taken for one of
  -- Redis
  by_cases hallowed : reply.allowed = true
  · have hphase : replied self (.ok reply) = .calling (some reply.remaining) 1 := by
      simp only [replied, if_pos hallowed]
    rw [hphase, if_pos hallowed, Function.iterate_succ_apply]
    simp only [Phase.next, responded]
    cases hcall : calls.call_next 1 with
    | ok response => exact iterate_done (k + 1) _ _
    | error e =>
        rw [fail_open_settles e 1 k]
        cases e with
        | exception text => rfl
        | base text => rfl
  · -- refused: `Retry-After` is divided by the rate
    by_cases hrate : self.refill_rate = 0
    · have htoo : too_many_requests self = .error (.exception "ZeroDivisionError") := by
        simp only [too_many_requests, if_pos hrate]
      simp only [replied, hallowed, htoo, Bool.false_eq_true, if_false]
      exact fail_open_settles _ 0 (k + 1)
    · obtain ⟨response, htoo⟩ : ∃ response, too_many_requests self = .ok response := by
        simp only [too_many_requests, if_neg hrate]
        exact ⟨_, rfl⟩
      simp only [replied, hallowed, htoo, Bool.false_eq_true, if_false]
      exact iterate_done (k + 2) _ _

/-- **The Redis part of a request** ends with a reply of the script or with an exception. -/
theorem dispatch_redis (self : RateLimitMiddleware) (script_sha : Option String) (calls : Calls)
    (hexempt : exempt path = false) :
    ∃ k, (∃ reply, script_reply script_sha path calls = some reply ∧
        dispatch self script_sha path calls
          = (Phase.next self calls)^[k + 2] (replied self (.ok reply))) ∨
      ∃ e, script_reply script_sha path calls = none ∧
        dispatch self script_sha path calls = (Phase.next self calls)^[k + 1] (fail_open e 0) := by
  unfold dispatch received script_reply
  rw [hexempt]
  simp only [Bool.false_eq_true, if_false]
  -- each call that raises goes straight to the handler; what is left over are steps that stay
  cases hconnect : calls.connect with
  | error e => exact ⟨3, Or.inr ⟨e, rfl, rfl⟩⟩
  | ok u =>
      cases script_sha with
      | some sha =>
          have hnext : Phase.next self calls (.evaluating sha) = replied self calls.evalsha := rfl
          dsimp only
          rw [Function.iterate_succ_apply, hnext]
          cases calls.evalsha with
          | error e => exact ⟨2, Or.inr ⟨e, rfl, rfl⟩⟩
          | ok reply => exact ⟨1, Or.inl ⟨reply, rfl, rfl⟩⟩
      | none =>
          have hload : Phase.next self calls .loading = loaded calls.script_load := rfl
          dsimp only
          rw [Function.iterate_succ_apply, hload]
          cases calls.script_load with
          | error e => exact ⟨2, Or.inr ⟨e, rfl, rfl⟩⟩
          | ok sha =>
              have hnext : Phase.next self calls (loaded (.ok sha)) = replied self calls.evalsha :=
                rfl
              rw [Function.iterate_succ_apply, hnext]
              cases calls.evalsha with
              | error e => exact ⟨1, Or.inr ⟨e, rfl, rfl⟩⟩
              | ok reply => exact ⟨0, Or.inl ⟨reply, rfl, rfl⟩⟩

/-- A request for which the script is executed. -/
theorem dispatch_of_reply {reply : Reply} (h : script_reply script_sha path calls = some reply) :
    ∃ k, dispatch self script_sha path calls
      = (Phase.next self calls)^[k + 2] (replied self (.ok reply)) := by
  have hexempt : exempt path = false := by
    by_contra hexempt
    simp only [Bool.not_eq_false] at hexempt
    simp only [script_reply, if_pos hexempt] at h
    cases h
  obtain ⟨k, ⟨reply', hreply, hdispatch⟩ | ⟨e, hreply, -⟩⟩ :=
    dispatch_redis self script_sha calls hexempt
  · rw [h] at hreply
    cases hreply
    exact ⟨k, hdispatch⟩
  · rw [h] at hreply
    cases hreply

/-- A request for which it is not: the limiter skips it, or a call to Redis raises. -/
theorem dispatch_of_no_reply (h : script_reply script_sha path calls = none) :
    dispatch self script_sha path calls = .done (calls.call_next 1) 1 ∨
      ∃ text, dispatch self script_sha path calls = .done (.error (.base text)) 0 := by
  by_cases hexempt : exempt path = true
  · left
    unfold dispatch received
    rw [if_pos hexempt, Function.iterate_succ_apply]
    exact iterate_done 3 _ _
  · obtain ⟨k, ⟨reply, hreply, -⟩ | ⟨e, -, hdispatch⟩⟩ :=
      dispatch_redis self script_sha calls (by simpa using hexempt)
    · rw [h] at hreply
      cases hreply
    · rw [hdispatch, fail_open_settles]
      cases e with
      | exception text => exact Or.inl rfl
      | base text => exact Or.inr ⟨text, rfl⟩

/-! ## At most one execution

The handler around the whole does not ask where an exception came from. One of the application's
is taken for one of Redis's, and the application is called again. -/

/-- The request is passed to the application at most once, not at all when the script denies
it, and what the application raises is what `dispatch` raises. -/
def ExecutedOnce (self : RateLimitMiddleware) (script_sha : Option String) (path : String)
    (calls : Calls) : Prop :=
  ∃ result n, dispatch self script_sha path calls = .done result n ∧ n ≤ 1 ∧
    (∀ reply ∈ script_reply script_sha path calls, reply.allowed = false → n = 0) ∧
    ∀ k, 1 ≤ k → k ≤ n → ∀ e, calls.call_next k = .error e → result = .error e

/-- **Exactly when a request is executed at most once**: unless the application raises an
`Exception` at a request the script allowed, which the handler takes for a failure of Redis;
and a denied request gets its 429 unless the rate is zero. -/
theorem executed_once_iff (self : RateLimitMiddleware) (script_sha : Option String)
    (path : String) (calls : Calls) :
    ExecutedOnce self script_sha path calls ↔
      ∀ reply ∈ script_reply script_sha path calls,
        (reply.allowed = true → ∀ text, calls.call_next 1 ≠ .error (.exception text)) ∧
          (reply.allowed = false → self.refill_rate ≠ 0) := by
  unfold ExecutedOnce
  cases hreply : script_reply script_sha path calls with
  | none =>
      refine iff_of_true ?_ (fun reply h => by cases h)
      have hdispatch : dispatch self script_sha path calls = .done (calls.call_next 1) 1 ∨
          ∃ text, dispatch self script_sha path calls = .done (.error (.base text)) 0 :=
        dispatch_of_no_reply hreply
      rcases hdispatch with h | ⟨text, h⟩
      · refine ⟨_, _, h, le_refl 1, (fun reply h => by cases h), fun k h1 hk e he => ?_⟩
        obtain rfl : k = 1 := Nat.le_antisymm hk h1
        exact he
      · exact ⟨_, _, h, Nat.zero_le 1, (fun reply h => by cases h), fun k h1 hk => by omega⟩
  | some reply =>
      obtain ⟨k, hdispatch⟩ : ∃ k, dispatch self script_sha path calls
          = (Phase.next self calls)^[k + 2] (replied self (.ok reply)) :=
        dispatch_of_reply hreply
      rw [hdispatch, replied_settles reply k]
      simp only [Option.mem_some_iff, forall_eq']
      by_cases hallowed : reply.allowed = true
      · simp only [hallowed, if_true]
        cases hcall : calls.call_next 1 with
        | ok response =>
            refine iff_of_true ⟨_, 1, rfl, le_refl 1, by simp, fun k h1 hk e he => ?_⟩ (by simp)
            obtain rfl : k = 1 := Nat.le_antisymm hk h1
            rw [hcall] at he
            cases he
        | error e => cases e with
          | exception text =>
              -- the handler has invoked it a second time
              refine iff_of_false ?_ (by simp)
              rintro ⟨result, n, hdone, hn, -⟩
              cases hdone
              omega
          | base text =>
              refine iff_of_true ⟨_, 1, rfl, le_refl 1, by simp, fun k h1 hk e he => ?_⟩ (by simp)
              obtain rfl : k = 1 := Nat.le_antisymm hk h1
              rw [hcall] at he
              exact he
      · simp only [Bool.not_eq_true] at hallowed
        by_cases hrate : self.refill_rate = 0
        · simp only [hallowed, too_many_requests, hrate, Bool.false_eq_true, if_false, if_true]
          refine iff_of_false ?_ (by simp)
          rintro ⟨result, n, hdone, -, hzero, -⟩
          cases hdone
          exact absurd (hzero trivial) one_ne_zero
        · simp only [hallowed, too_many_requests, hrate, Bool.false_eq_true, if_false]
          refine iff_of_true ⟨_, 0, rfl, Nat.zero_le 1, by simp, fun k h1 hk => by omega⟩ ?_
          simpa using hrate

/-- A middleware as `main` configures it by default. -/
def sampleMiddleware : RateLimitMiddleware := { capacity := 100, refill_rate := 10 }

/-- Redis allows the request, and the application raises after its side effects. -/
def failingApplication : Calls :=
  { connect := .ok (), script_load := .ok "sha",
    evalsha := .ok { allowed := true, remaining := 99 },
    call_next := fun _ => .error (.exception "RuntimeError") }

/-- A request the application fails on is executed twice. -/
theorem executed_twice : ¬ ∀ (self : RateLimitMiddleware) (script_sha : Option String)
    (path : String) (calls : Calls), ExecutedOnce self script_sha path calls := by
  intro h
  obtain ⟨result, n, hdone, hn, -⟩ :=
    h sampleMiddleware none "/api/v1/jobs" failingApplication
  have htwice : dispatch sampleMiddleware none "/api/v1/jobs" failingApplication
      = .done (.error (.exception "RuntimeError")) 2 := rfl
  rw [htwice] at hdone
  cases hdone
  omega

end WalStream.Middleware

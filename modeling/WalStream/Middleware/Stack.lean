/-
A request through the middleware of the control API.

`main` adds the middleware from the inside out: `AuthContextMiddleware`, `AuditMiddleware`,
`RateLimitMiddleware`. The limiter stands before the audit, so what it denies is not audited.
It passes a request on twice where the application raises at first, and the audit, which writes
an entry for a response only, then shows one of the two. The application is all that is further
inside, CORS and the routes.
-/
import WalStream.Middleware.Audit
import WalStream.Middleware.RateLimit

set_option autoImplicit false

namespace WalStream.Middleware

open Lib

/-! ## The stack

The limiter is the outer one of the three, so what it calls is the audit around the context
around the application, and it may call it twice. -/

/-- How the transaction of an audit entry ends. -/
inductive AuditWrite
  | stored
  /-- It raises an `Exception`, which is logged and forgotten. -/
  | failed
  /-- The request is cancelled meanwhile, before the commit or after it. -/
  | cancelled (stored : Bool)
deriving DecidableEq

/-- `AuthContextMiddleware.dispatch`, once `call_next` has returned or raised. -/
def auth_context_dispatch (jwt : String → Decoded) (request : Request)
    (response : Except Exc Response) : Except Exc Response :=
  response.map fun response =>
    { response with
      headers := (token_headers jwt request).foldl
        (fun headers header => headers.set header.1 header.2) response.headers }

/-- `AuditMiddleware.dispatch`, likewise, and the entries it leaves. -/
def audit_dispatch (jwt : String → Decoded) (now : Int) (write : AuditWrite) (request : Request)
    (response : Except Exc Response) : Except Exc Response × List AuditLog :=
  match response with
  | .error e => (.error e, [])
  | .ok response =>
      match audit_entry jwt now response.status_code request, write with
      | none, _ => (.ok response, [])
      | some entry, .stored => (.ok response, [entry])
      | some _, .failed => (.ok response, [])
      -- a `CancelledError` is no `Exception`
      | some entry, .cancelled stored =>
          (.error (.base "CancelledError"), if stored then [entry] else [])

/-- What happens behind the limiter, for each time it calls the application. -/
structure Backend where
  jwt : Nat → String → Decoded
  now : Nat → Int
  app : Nat → Except Exc Response
  write : Nat → AuditWrite

/-- The `k`-th call. -/
def Backend.call_next (backend : Backend) (request : Request) (k : Nat) :
    Except Exc Response × List AuditLog :=
  audit_dispatch (backend.jwt k) (backend.now k) (backend.write k) request
    (auth_context_dispatch (backend.jwt k) request (backend.app k))

/-- What the calls of Redis return or raise. -/
structure RedisCalls where
  connect : Except Exc Unit
  script_load : Except Exc String
  evalsha : Except Exc Reply

/-- The calls of `RateLimitMiddleware.dispatch`. -/
def Backend.calls (backend : Backend) (request : Request) (redis : RedisCalls) : Calls :=
  { connect := redis.connect,
    script_load := redis.script_load,
    evalsha := redis.evalsha,
    call_next := fun k => (backend.call_next request k).1 }

/-- The invocations of `call_next` so far. -/
def Phase.invocations : Phase → Nat
  | .loading => 0
  | .evaluating _ => 0
  | .calling _ n => n
  | .done _ n => n

/-- A request through the stack: how the limiter ends, and the audit entries. -/
def handle (self : RateLimitMiddleware) (script_sha : Option String) (redis : RedisCalls)
    (backend : Backend) (request : Request) : Phase × List AuditLog :=
  let phase := dispatch self script_sha request.path (backend.calls request redis)
  (phase, (List.range' 1 phase.invocations).flatMap fun k => (backend.call_next request k).2)

/-! ## What the limiter makes of the calls

Whatever the number of calls, the response is that of the last one, or the limiter's own. -/

/-- What `dispatch` ends with after `n` calls of the application: with what the last one
returned or raised, but for the limiter's headers, the one before having raised. -/
structure FromLastCall (calls : Calls) (result : Except Exc Response) (n : Nat) : Prop where
  atMostTwo : n ≤ 2
  first_raised : n = 2 → ∃ text, calls.call_next 1 = .error (.exception text)
  raised : 1 ≤ n → ∀ e, calls.call_next n = .error e → result = .error e
  returned : 1 ≤ n → ∀ response, calls.call_next n = .ok response →
    ∃ response', result = .ok response' ∧ response'.status_code = response.status_code

section

variable {calls : Calls}

theorem FromLastCall.of_zero (result : Except Exc Response) : FromLastCall calls result 0 :=
  ⟨by decide, fun h => absurd h (by decide), fun h => absurd h (by decide),
    fun h => absurd h (by decide)⟩

theorem FromLastCall.of_one : FromLastCall calls (calls.call_next 1) 1 :=
  ⟨by decide, fun h => absurd h (by decide), fun _ _ he => he,
    fun _ response hr => ⟨response, hr, rfl⟩⟩

/-- **How `dispatch` ends.** -/
theorem dispatch_from_last_call (self : RateLimitMiddleware) (script_sha : Option String)
    (path : String) (calls : Calls) :
    ∃ result n, dispatch self script_sha path calls = .done result n ∧
      FromLastCall calls result n := by
  cases hreply : script_reply script_sha path calls with
  | none =>
      have hdispatch : dispatch self script_sha path calls = .done (calls.call_next 1) 1 ∨
          ∃ text, dispatch self script_sha path calls = .done (.error (.base text)) 0 :=
        dispatch_of_no_reply hreply
      rcases hdispatch with h | ⟨text, h⟩
      · exact ⟨_, 1, h, .of_one⟩
      · exact ⟨_, 0, h, .of_zero _⟩
  | some reply =>
      obtain ⟨k, hdispatch⟩ : ∃ k, dispatch self script_sha path calls
          = (Phase.next self calls)^[k + 2] (replied self (.ok reply)) :=
        dispatch_of_reply hreply
      rw [hdispatch, replied_settles reply k]
      split
      · cases hcall : calls.call_next 1 with
        | ok response =>
            refine ⟨_, 1, rfl, by decide, fun h => absurd h (by decide), fun _ e he => ?_, ?_⟩
            · rw [hcall] at he
              cases he
            · intro _ response' hr
              rw [hcall, Except.ok.injEq] at hr
              exact ⟨_, rfl, by rw [hr]; rfl⟩
        | error e =>
            cases e with
            | exception text =>
                exact ⟨_, 2, rfl, le_refl 2, fun _ => ⟨text, hcall⟩, fun _ _ he => he,
                  fun _ response hr => ⟨response, hr, rfl⟩⟩
            | base text =>
                refine ⟨_, 1, rfl, ?_⟩
                rw [← hcall]
                exact .of_one
      · split
        · exact ⟨_, 0, rfl, .of_zero _⟩
        · exact ⟨_, 1, rfl, .of_one⟩

end

/-! ## What is audited

An entry is written when a call returns. So a call that raises leaves none, and the entry of the
second call is the only one. -/

/-- Only a response is audited, and only a cancelled request loses it. -/
theorem audit_dispatch_cases (jwt : String → Decoded) (now : Int) (write : AuditWrite)
    (request : Request) (response : Except Exc Response) :
    (∃ e, audit_dispatch jwt now write request response = (.error e, []) ∧ response = .error e) ∨
    (∃ r, audit_dispatch jwt now write request response
        = (.ok r, if write = .stored then (audit_entry jwt now r.status_code request).toList else [])
      ∧ response = .ok r) ∨
    ∃ stored log, write = .cancelled stored ∧ log.length ≤ 1 ∧
      audit_dispatch jwt now write request response = (.error (.base "CancelledError"), log) := by
  cases response with
  | error e => exact Or.inl ⟨e, rfl, rfl⟩
  | ok r =>
      cases hentry : audit_entry jwt now r.status_code request with
      | none =>
          refine Or.inr (Or.inl ⟨r, ?_, rfl⟩)
          simp [audit_dispatch, hentry]
      | some entry =>
          cases write with
          | stored =>
              refine Or.inr (Or.inl ⟨r, ?_, rfl⟩)
              simp [audit_dispatch, hentry]
          | failed =>
              refine Or.inr (Or.inl ⟨r, ?_, rfl⟩)
              simp [audit_dispatch, hentry]
          | cancelled stored =>
              refine Or.inr (Or.inr ⟨stored, if stored then [entry] else [], rfl, ?_, ?_⟩)
              · split
                · exact Nat.le_refl 1
                · exact Nat.zero_le 1
              · simp [audit_dispatch, hentry]

section

variable {redis : RedisCalls} {backend : Backend} {request : Request}

/-- A call that raises an `Exception` leaves no entry. -/
theorem call_next_raised {k : Nat} {text : String}
    (h : (backend.call_next request k).1 = .error (.exception text)) :
    (backend.call_next request k).2 = [] := by
  unfold Backend.call_next at h ⊢
  rcases audit_dispatch_cases (backend.jwt k) (backend.now k) (backend.write k) request
    (auth_context_dispatch (backend.jwt k) request (backend.app k))
    with ⟨e, heq, -⟩ | ⟨r, heq, -⟩ | ⟨stored, log, -, -, heq⟩
  · rw [heq]
  · rw [heq] at h
    cases h
  · rw [heq] at h
    cases h

/-- The entries are those of the last call. -/
theorem handle_log {result : Except Exc Response} {n : Nat}
    (h : FromLastCall (backend.calls request redis) result n) :
    ((List.range' 1 n).flatMap fun k => (backend.call_next request k).2)
      = if n = 0 then [] else (backend.call_next request n).2 := by
  obtain rfl | rfl | rfl : n = 0 ∨ n = 1 ∨ n = 2 := by
    have hn := h.atMostTwo
    omega
  · rfl
  · simp
  · obtain ⟨text, hraised⟩ := h.first_raised rfl
    simp [List.range', call_next_raised hraised]

/-- **A response is audited once.** Whatever Redis and the application do, a request leaves one
audit entry at most; and unless it is cancelled while the entry is written, there is one exactly
if it is mutating, what the client gets is a response of the application, and the entry is
stored: the entry of that response. A request that the limiter denies or the application fails
on leaves none, and one that is executed twice leaves one. -/
theorem response_audited_once (self : RateLimitMiddleware) (script_sha : Option String)
    (redis : RedisCalls) (backend : Backend) (request : Request) :
    ∃ result n log, handle self script_sha redis backend request = (.done result n, log) ∧
      log.length ≤ 1 ∧
      ((∀ k stored, backend.write k ≠ .cancelled stored) →
        log = match result with
          | .ok response =>
              if 1 ≤ n ∧ backend.write n = .stored then
                (audit_entry (backend.jwt n) (backend.now n) response.status_code request).toList
              else []
          | .error _ => []) := by
  obtain ⟨result, n, hdispatch, hlast⟩ :=
    dispatch_from_last_call self script_sha request.path (backend.calls request redis)
  refine ⟨result, n, if n = 0 then [] else (backend.call_next request n).2, ?_, ?_⟩
  · simp only [handle, hdispatch, Phase.invocations, handle_log hlast]
  -- either the application was not called, or what its last call brought decides
  by_cases hn : n = 0
  · subst hn
    refine ⟨Nat.zero_le 1, fun _ => ?_⟩
    cases result <;> rfl
  · have h1 : 1 ≤ n := Nat.one_le_iff_ne_zero.mpr hn
    rw [if_neg hn]
    have hraised := hlast.raised h1
    have hreturned := hlast.returned h1
    simp only [Backend.calls, Backend.call_next] at hraised hreturned ⊢
    rcases audit_dispatch_cases (backend.jwt n) (backend.now n) (backend.write n) request
      (auth_context_dispatch (backend.jwt n) request (backend.app n))
      with ⟨e, heq, -⟩ | ⟨r, heq, -⟩ | ⟨stored, log, hcancelled, hlength, heq⟩
    · -- it raised: nothing is written
      rw [heq] at hraised ⊢
      rw [hraised e rfl]
      exact ⟨Nat.zero_le 1, fun _ => rfl⟩
    · -- it returned, and the entry is about the response that is sent
      rw [heq] at hreturned ⊢
      obtain ⟨response, hresult, hstatus⟩ := hreturned r rfl
      rw [hresult]
      refine ⟨?_, fun _ => ?_⟩
      · dsimp only
        split
        · exact Option.length_toList_le
        · exact Nat.zero_le 1
      · simp only [h1, true_and, hstatus]
    · -- the audit's write was cancelled, after which there may be an entry or none
      rw [heq]
      exact ⟨hlength, fun hnot => absurd hcancelled (hnot n stored)⟩

/-- Redis allows the request. -/
def allowing : RedisCalls :=
  { connect := .ok (), script_load := .ok "sha", evalsha := .ok { allowed := true, remaining := 99 } }

/-- The application raises after its side effects, and returns when it is called again. -/
def failingAtFirst : Backend :=
  { jwt := fun _ => sampleJwt false,
    now := fun _ => 0,
    app := fun k =>
      if k = 1 then .error (.exception "RuntimeError")
      else .ok { status_code := 201, headers := Dict.ofPairs [], content := "" },
    write := fun _ => .stored }

/-- The log does not show that a request was executed twice. -/
theorem executed_twice_audited_once :
    ∃ result entry, handle sampleMiddleware none allowing failingAtFirst sampleRequest
        = (.done result 2, [entry]) ∧ entry.status_code = "201" := by
  refine ⟨_, _, rfl, ?_⟩
  decide +kernel

end

end WalStream.Middleware

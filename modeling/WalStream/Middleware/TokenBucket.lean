/-
`_LUA_SCRIPT`: the token bucket of one client, in Redis.

The script reads the two fields of the bucket's hash, refills, tries to consume a token and
writes the fields back with an expiry. It takes the time from its caller: `now` is the clock
of whichever application process sent the request, while the expiry runs on the clock of
Redis. The two are separate here.

Numbers are exact. The bucket is the pair of fields, and a key that is absent has none, so
the script's `tokens == nil` is the absence of the bucket.
-/
import Mathlib.Data.Rat.Floor
import Mathlib.Algebra.Order.Field.Basic
import Mathlib.Algebra.Order.Archimedean.Basic
import Mathlib.Data.List.Chain
import Mathlib.Tactic.Linarith
import Mathlib.Tactic.Ring
import Mathlib.Tactic.Positivity

set_option autoImplicit false

namespace WalStream.Middleware

/-! ## The script

The Lua script on rational numbers, with the key's expiry around it. The clock of the caller, by
which tokens are counted, and that of Redis, by which keys expire, are two. -/

/-- `ARGV[1]` and `ARGV[2]`. -/
structure Limits where
  capacity : ℚ
  /-- Tokens per second. -/
  rate : ℚ
deriving DecidableEq

/-- Limits a middleware is configured with. -/
structure Limits.Valid (lim : Limits) : Prop where
  one_le_capacity : 1 ≤ lim.capacity
  rate_pos : 0 < lim.rate

/-- The fields of the hash. -/
structure Bucket where
  tokens : ℚ
  /-- The `now` of the last call, in seconds. -/
  ts : ℚ
deriving DecidableEq

/-- The script's reply, `{allowed, remaining}`. -/
structure Reply where
  allowed : Bool
  remaining : Int
deriving DecidableEq, Repr

/-- The tokens after the refill. -/
def refilled (lim : Limits) (data : Option Bucket) (now : ℚ) : ℚ :=
  let tokens := (data.map Bucket.tokens).getD lim.capacity
  let last := (data.map Bucket.ts).getD now
  let elapsed := max 0 (now - last)
  min lim.capacity (tokens + elapsed * lim.rate)

/-- The body of the script: the fields it writes, and its reply. -/
def script (lim : Limits) (data : Option Bucket) (now : ℚ) : Bucket × Reply :=
  let tokens := refilled lim data now
  -- `last = now` whichever way the clock went
  if 1 ≤ tokens then
    ({ tokens := tokens - 1, ts := now }, { allowed := true, remaining := ⌊tokens - 1⌋ })
  else
    ({ tokens := tokens, ts := now }, { allowed := false, remaining := 0 })

/-- The argument of `EXPIRE`, in seconds. -/
def ttl (lim : Limits) : Int := ⌈lim.capacity / lim.rate⌉ + 1

/-- A key of Redis that expires. -/
structure Key where
  bucket : Bucket
  expires_at : ℚ
deriving DecidableEq

/-- What `HMGET` finds at the time `clock` of Redis. -/
def Key.read (key : Option Key) (clock : ℚ) : Option Bucket :=
  key.bind fun k => if k.expires_at < clock then none else some k.bucket

/-- An execution of the script: the key it leaves, and its reply. -/
def execute (lim : Limits) (key : Option Key) (clock now : ℚ) : Key × Reply :=
  let (bucket, reply) := script lim (Key.read key clock) now
  ({ bucket := bucket, expires_at := clock + ttl lim }, reply)

/-! ## One execution

What the refill adds, what is taken, and what is written. The time stamp that is written is the
caller's `now`, whatever the one before it was. -/

variable {lim : Limits} {data : Option Bucket} {now : ℚ}

/-- The token count of a bucket is one the script could have written. -/
def Bucket.InRange (lim : Limits) (b : Bucket) : Prop := 0 ≤ b.tokens ∧ b.tokens ≤ lim.capacity

/-- A key that is absent stands for a full bucket. It is absent for a new client and after the
expiry, and the two cannot be told apart. -/
theorem refilled_none (lim : Limits) (now : ℚ) : refilled lim none now = lim.capacity := by
  simp [refilled]

/-- A bucket is refilled by the time since it was written, as the caller's clock has it; a clock
that has gone back adds nothing. -/
theorem refilled_some (lim : Limits) (b : Bucket) (now : ℚ) :
    refilled lim (some b) now
      = min lim.capacity (b.tokens + max 0 (now - b.ts) * lim.rate) := rfl

/-- The refill is capped, -/
theorem refilled_le_capacity : refilled lim data now ≤ lim.capacity := min_le_left _ _

/-- Refilling adds what the clock has moved forward, at most. -/
theorem refilled_le (lim : Limits) (b : Bucket) (now : ℚ) :
    refilled lim (some b) now ≤ b.tokens + max 0 (now - b.ts) * lim.rate := min_le_right _ _

/-- and it takes nothing away. -/
theorem refilled_nonneg (hlim : lim.Valid) (hdata : ∀ b ∈ data, b.InRange lim) :
    0 ≤ refilled lim data now := by
  have hcap : 0 ≤ lim.capacity := le_trans zero_le_one hlim.one_le_capacity
  cases data with
  | none => rw [refilled_none]; exact hcap
  | some b =>
      have hrate := hlim.rate_pos
      have helapsed : 0 ≤ max 0 (now - b.ts) := le_max_left _ _
      rw [refilled_some]
      refine le_min hcap (add_nonneg (hdata b rfl).1 ?_)
      positivity

/-- The tokens the script leaves, and the one it took, are those of the refill. -/
theorem script_tokens (lim : Limits) (data : Option Bucket) (now : ℚ) :
    (script lim data now).1.tokens + (script lim data now).2.allowed.toNat
      = refilled lim data now := by
  unfold script
  by_cases h : 1 ≤ refilled lim data now
  · simp [h]
  · simp [h]

/-- The timestamp is the caller's `now`, even when that is before the one stored. This is how a
clock that goes back gets the same time credited a second time. -/
@[simp] theorem script_ts (lim : Limits) (data : Option Bucket) (now : ℚ) :
    (script lim data now).1.ts = now := by
  unfold script
  by_cases h : 1 ≤ refilled lim data now
  · simp [h]
  · simp [h]

/-- A token is taken if there is a whole one. -/
theorem script_allowed (lim : Limits) (data : Option Bucket) (now : ℚ) :
    (script lim data now).2.allowed = decide (1 ≤ refilled lim data now) := by
  unfold script
  by_cases h : 1 ≤ refilled lim data now
  · simp [h]
  · simp [h]

/-- The stored count stays in range. -/
theorem script_inRange (hlim : lim.Valid) (hdata : ∀ b ∈ data, b.InRange lim) :
    (script lim data now).1.InRange lim := by
  have hle : refilled lim data now ≤ lim.capacity := refilled_le_capacity
  have h0 : 0 ≤ refilled lim data now := refilled_nonneg hlim hdata
  unfold script Bucket.InRange
  by_cases h : 1 ≤ refilled lim data now
  · rw [if_pos h]
    dsimp only
    constructor
    · linarith
    · linarith
  · rw [if_neg h]
    exact ⟨h0, hle⟩

/-- Two buckets the script cannot tell apart. -/
theorem script_congr {data' : Option Bucket} (h : refilled lim data now = refilled lim data' now) :
    script lim data now = script lim data' now := by
  simp only [script, h]

/-- An absent key has no fields. -/
@[simp] theorem Key.read_none (clock : ℚ) : Key.read none clock = none := rfl

/-- Fields are found in the key that is there. -/
theorem Key.read_mem {key : Option Key} {clock : ℚ} {b : Bucket} (h : b ∈ Key.read key clock) :
    ∃ k ∈ key, k.bucket = b := by
  obtain ⟨k, hk, hb⟩ := Option.bind_eq_some_iff.mp h
  split at hb
  · cases hb
  · exact ⟨k, hk, Option.some.inj hb⟩

/-- The expiry lies ahead, so a key that was just written can be read. -/
theorem ttl_nonneg (hlim : lim.Valid) : 0 ≤ ttl lim := by
  have hcap : 0 ≤ lim.capacity := le_trans zero_le_one hlim.one_le_capacity
  have hceil := Int.ceil_nonneg (div_nonneg hcap hlim.rate_pos.le)
  unfold ttl
  omega

/-- A key just written has not expired. -/
theorem Key.read_written (hlim : lim.Valid) (b : Bucket) (clock : ℚ) :
    Key.read (some ⟨b, clock + ttl lim⟩) clock = some b := by
  have hpos : (0 : ℚ) ≤ ttl lim := by exact_mod_cast ttl_nonneg hlim
  have h : ¬ clock + ttl lim < clock := by linarith
  simp only [Key.read, Option.bind_some, if_neg h]

/-! ## Runs on one key

The calls of one client in the order in which Redis executes them, whoever made them. -/

/-- A call of the script: the clock of Redis, and the caller's `now`. -/
structure Call where
  clock : ℚ
  now : ℚ
deriving DecidableEq

/-- The executions of the calls in order: the key each leaves, and its reply. -/
def executions (lim : Limits) : Option Key → List Call → List (Key × Reply)
  | _, [] => []
  | key, c :: cs =>
      let e := execute lim key c.clock c.now
      e :: executions lim (some e.1) cs

/-- The number of calls that return allowed. -/
def granted (es : List (Key × Reply)) : Nat := es.countP fun e => e.2.allowed

/-- One call more: it is granted or not, and the others run on the key it leaves. -/
theorem granted_cons (lim : Limits) (key : Option Key) (c : Call) (cs : List Call) :
    (granted (executions lim key (c :: cs)) : ℚ)
      = granted (executions lim (some (execute lim key c.clock c.now).1) cs)
        + (script lim (Key.read key c.clock) c.now).2.allowed.toNat := by
  simp only [executions, granted, execute, List.countP_cons]
  cases (script lim (Key.read key c.clock) c.now).2.allowed with
  | true => simp
  | false => simp

/-- **The stored count is always in range**, whatever the clocks do. -/
theorem executions_inRange (hlim : lim.Valid) (calls : List Call) {key : Option Key}
    (hkey : ∀ k ∈ key, k.bucket.InRange lim) :
    ∀ e ∈ executions lim key calls, e.1.bucket.InRange lim := by
  induction calls generalizing key with
  | nil => intro e he; cases he
  | cons c cs ih =>
      have hfirst : (execute lim key c.clock c.now).1.bucket.InRange lim := by
        refine script_inRange hlim fun b hb => ?_
        obtain ⟨k, hk, rfl⟩ := Key.read_mem hb
        exact hkey k hk
      intro e he
      rcases List.mem_cons.mp he with rfl | he
      · exact hfirst
      · refine ih (fun k hk => ?_) e he
        obtain rfl := Option.mem_some.mp hk
        exact hfirst

/-! ## The budget

A bucket pays for its tokens and for the time that its clock moves forward. The steps forward
add up to the span of the readings as long as the clock does not go over the same time twice. -/

/-- How far a sequence of clock readings moves forward, all its forward steps together. -/
def travel : List ℚ → ℚ
  | t :: u :: ts => max 0 (u - t) + travel (u :: ts)
  | _ => 0

/-- The largest reading less the smallest. -/
def span : List ℚ → ℚ
  | [] => 0
  | t :: ts => ts.foldl max t - ts.foldl min t

/-- Between the calls `c` and `d` the key does not expire, or `now` moves on by the time it
takes to fill the bucket. -/
def Kept (lim : Limits) (c d : Call) : Prop :=
  d.clock ≤ c.clock + ttl lim ∨ lim.capacity ≤ (d.now - c.now) * lim.rate

instance (lim : Limits) (c d : Call) : Decidable (Kept lim c d) :=
  inferInstanceAs (Decidable (_ ∨ _))

/-- What a call can use up: the tokens the last one left, and what the clock moved since. -/
theorem refilled_read_le (hlim : lim.Valid) {c d : Call} {b : Bucket} (hkept : Kept lim c d)
    (hb : b.InRange lim) (hts : b.ts = c.now) :
    refilled lim (Key.read (some { bucket := b, expires_at := c.clock + ttl lim }) d.clock) d.now
      ≤ b.tokens + max 0 (d.now - c.now) * lim.rate := by
  have hrate := hlim.rate_pos
  unfold Key.read
  rw [Option.bind_some]
  by_cases hexpired : c.clock + ttl lim < d.clock
  · -- a forgotten bucket is full, and the clock has had the time to fill it
    rw [if_pos hexpired, refilled_none]
    have hfull : lim.capacity ≤ (d.now - c.now) * lim.rate := by
      rcases hkept with h | h
      · exact absurd h (not_le.mpr hexpired)
      · exact h
    have hmax : (d.now - c.now) * lim.rate ≤ max 0 (d.now - c.now) * lim.rate :=
      mul_le_mul_of_nonneg_right (le_max_right _ _) hrate.le
    have := hb.1
    linarith
  · rw [if_neg hexpired]
    have h := refilled_le lim b d.now
    rwa [hts] at h

/-- From a bucket on, the calls are granted its tokens and the rate times what the clock
moves forward, at most. -/
theorem granted_le_of_bucket (hlim : lim.Valid) (calls : List Call) {c : Call} {b : Bucket}
    (hb : b.InRange lim) (hts : b.ts = c.now) (hkept : (c :: calls).IsChain (Kept lim)) :
    (granted (executions lim (some ⟨b, c.clock + ttl lim⟩) calls) : ℚ)
      ≤ b.tokens + travel ((c :: calls).map Call.now) * lim.rate := by
  induction calls generalizing c b with
  | nil => simpa [executions, granted, travel] using hb.1
  | cons d ds ih =>
      rw [List.isChain_cons_cons] at hkept
      have hle := refilled_read_le hlim hkept.1 hb hts
      have hread : ∀ b' ∈ Key.read (some ⟨b, c.clock + ttl lim⟩) d.clock, b'.InRange lim := by
        intro b' hb'
        obtain ⟨k, hk, rfl⟩ := Key.read_mem hb'
        obtain rfl := Option.mem_some.mp hk
        exact hb
      have hrest := ih (script_inRange hlim hread) (script_ts lim _ d.now) hkept.2
      have htokens := script_tokens lim (Key.read (some ⟨b, c.clock + ttl lim⟩) d.clock) d.now
      rw [granted_cons]
      simp only [List.map_cons, travel, execute] at hrest ⊢
      linarith

/-- **The budget in terms of the clocks' travel.** -/
theorem granted_le_travel (hlim : lim.Valid) {calls : List Call}
    (hkept : calls.IsChain (Kept lim)) :
    (granted (executions lim none calls) : ℚ)
      ≤ lim.capacity + travel (calls.map Call.now) * lim.rate := by
  cases calls with
  | nil =>
      have := hlim.one_le_capacity
      simp only [executions, granted, travel, List.map_nil, List.countP_nil, Nat.cast_zero]
      linarith
  | cons c cs =>
      have hrest := granted_le_of_bucket hlim cs
        (script_inRange hlim (fun b hb => by cases hb))
        (script_ts lim none c.now) hkept
      have htokens := script_tokens lim none c.now
      rw [refilled_none] at htokens
      rw [granted_cons]
      simp only [execute, Key.read_none] at hrest ⊢
      linarith

/-- **The budget holds** of every sequence of calls whose clocks do not go over the same time
twice: together the readings move forward by no more than from the smallest to the largest.
The stored count is in range whatever they do. -/
theorem granted_within_budget (hlim : lim.Valid) {calls : List Call}
    (hkept : calls.IsChain (Kept lim))
    (htravel : travel (calls.map Call.now) ≤ span (calls.map Call.now)) :
    (granted (executions lim none calls) : ℚ)
        ≤ lim.capacity + lim.rate * span (calls.map Call.now) ∧
      ∀ e ∈ executions lim none calls, e.1.bucket.InRange lim := by
  refine ⟨?_, executions_inRange hlim calls fun k hk => by cases hk⟩
  have h := granted_le_travel hlim hkept
  have hmul := mul_le_mul_of_nonneg_right htravel hlim.rate_pos.le
  rw [mul_comm lim.rate]
  linarith

/-- A clock that steps back by the time of one token, and forward again. -/
def backAndForth : List Call := [⟨0, 0⟩, ⟨0, 1⟩, ⟨0, 0⟩, ⟨0, 1⟩]

example : executions ⟨1, 1⟩ none backAndForth
    = [(⟨⟨0, 0⟩, 2⟩, ⟨true, 0⟩), (⟨⟨0, 1⟩, 2⟩, ⟨true, 0⟩), (⟨⟨0, 0⟩, 2⟩, ⟨false, 0⟩),
       (⟨⟨0, 1⟩, 2⟩, ⟨true, 0⟩)] := by decide +kernel

/-- The readings 5, 4, 4 and 5 go back by a second and forward again, over no second twice. -/
theorem granted_within_budget_forward :
    (granted (executions ⟨2, 1⟩ none [⟨0, 5⟩, ⟨1, 4⟩, ⟨1, 4⟩, ⟨2, 5⟩]) : ℚ) ≤ 2 + 1 * 1 ∧
      ∀ e ∈ executions ⟨2, 1⟩ none [⟨0, 5⟩, ⟨1, 4⟩, ⟨1, 4⟩, ⟨2, 5⟩],
        e.1.bucket.InRange ⟨2, 1⟩ := by
  have h := @granted_within_budget ⟨2, 1⟩ ⟨by decide +kernel, by decide +kernel⟩
    [⟨0, 5⟩, ⟨1, 4⟩, ⟨1, 4⟩, ⟨2, 5⟩] (by decide +kernel) (by decide +kernel)
  have hspan : span ([⟨0, 5⟩, ⟨1, 4⟩, ⟨1, 4⟩, ⟨2, 5⟩].map Call.now) = 1 := by decide +kernel
  rwa [hspan] at h

/-- The second time the clock goes over the same second, it is credited again. -/
theorem budget_overrun : ¬ ∀ (lim : Limits) (calls : List Call), lim.Valid →
    (granted (executions lim none calls) : ℚ)
        ≤ lim.capacity + lim.rate * span (calls.map Call.now) ∧
      ∀ e ∈ executions lim none calls, e.1.bucket.InRange lim := by
  intro h
  have hbudget := (h ⟨1, 1⟩ backAndForth ⟨by decide +kernel, by decide +kernel⟩).1
  exact absurd hbudget (by decide +kernel)

/-! ## Without the condition

Every clock history that goes over the same time twice overruns the budget of some limits,
if at each of its readings enough calls are made. -/

/-- Some rate makes every difference of the readings a whole number of tokens. -/
theorem exists_scale (nows : List ℚ) :
    ∃ m : Nat, 0 < m ∧ ∀ t ∈ nows, ∃ z : Int, t * m = z := by
  induction nows with
  | nil => exact ⟨1, one_pos, fun t ht => by cases ht⟩
  | cons t ts ih =>
      obtain ⟨m, hm, hts⟩ := ih
      refine ⟨t.den * m, Nat.mul_pos t.den_pos hm, fun u hu => ?_⟩
      rcases List.mem_cons.mp hu with rfl | hu
      · refine ⟨u.num * m, ?_⟩
        push_cast
        rw [← mul_assoc, Rat.mul_den_eq_num]
      · obtain ⟨z, hz⟩ := hts u hu
        refine ⟨t.den * z, ?_⟩
        push_cast
        rw [← hz]
        ring

/-- The forward step from `t` to `u` is worth a whole number of tokens. -/
theorem exists_credit {m : Nat} {t u : ℚ} (ht : ∃ z : Int, t * m = z)
    (hu : ∃ z : Int, u * m = z) : ∃ n : Nat, max 0 (u - t) * m = n := by
  obtain ⟨x, hx⟩ := ht
  obtain ⟨y, hy⟩ := hu
  refine ⟨(y - x).toNat, ?_⟩
  rw [max_mul_of_nonneg _ _ (Nat.cast_nonneg m), sub_mul, hx, hy, zero_mul, max_comm]
  rw [← Int.cast_natCast (R := ℚ), Int.toNat_eq_max]
  push_cast
  rfl

/-- Calls at one reading use up a whole number of tokens, if there are enough of them. -/
theorem granted_drain (hlim : lim.Valid) (t : ℚ) (rest : List Call) :
    ∀ k n : Nat, n ≤ k → (n : ℚ) ≤ lim.capacity →
      granted (executions lim (some ⟨⟨n, t⟩, 0 + ttl lim⟩) (List.replicate k ⟨0, t⟩ ++ rest))
        = n + granted (executions lim (some ⟨⟨0, t⟩, 0 + ttl lim⟩) rest) := by
  intro k
  induction k with
  | zero =>
      intro n hn _
      obtain rfl := Nat.le_zero.mp hn
      simp
  | succ k ih =>
      intro n hn hcap
      have hread : Key.read (some ⟨⟨n, t⟩, 0 + ttl lim⟩) 0 = some ⟨n, t⟩ :=
        Key.read_written hlim _ 0
      -- no time passes between the calls, so nothing is refilled
      have hrefilled : refilled lim (some ⟨n, t⟩) t = n := by
        rw [refilled_some]
        simp [hcap]
      cases n with
      | zero =>
          have hscript : script lim (some ⟨((0 : Nat) : ℚ), t⟩) t = (⟨0, t⟩, ⟨false, 0⟩) := by
            unfold script
            rw [hrefilled]
            simp
          have hstep := ih 0 (Nat.zero_le k) hcap
          simp only [List.replicate_succ, List.cons_append, executions, execute, hread, hscript,
            granted, List.countP_cons] at hstep ⊢
          simpa using hstep
      | succ n =>
          have hscript : (script lim (some ⟨((n + 1 : Nat) : ℚ), t⟩) t).1 = ⟨n, t⟩ ∧
              (script lim (some ⟨((n + 1 : Nat) : ℚ), t⟩) t).2.allowed = true := by
            have hn0 : (0 : ℚ) ≤ n := n.cast_nonneg
            have h1 : (1 : ℚ) ≤ ((n + 1 : Nat) : ℚ) := by
              push_cast
              linarith
            unfold script
            rw [hrefilled, if_pos h1]
            simp
          have hle : (n : ℚ) ≤ lim.capacity := by push_cast at hcap; linarith
          have hstep := ih n (Nat.le_of_succ_le_succ hn) hle
          simp only [List.replicate_succ, List.cons_append, executions, execute, hread, hscript,
            granted, List.countP_cons] at hstep ⊢
          simp only [if_true] at hstep ⊢
          omega

/-- What the first call is granted depends on the refill alone, and so does the rest. -/
theorem granted_congr {lim : Limits} {key key' : Option Key} {c : Call} (cs : List Call)
    (h : refilled lim (Key.read key c.clock) c.now = refilled lim (Key.read key' c.clock) c.now) :
    granted (executions lim key (c :: cs)) = granted (executions lim key' (c :: cs)) := by
  simp only [executions, execute, script_congr h]

theorem travel_nonneg (ts : List ℚ) : 0 ≤ travel ts := by
  induction ts using travel.induct with
  | case1 t u ts ih => exact add_nonneg (le_max_left _ _) ih
  | case2 ts h => cases ts with
    | nil => exact le_refl _
    | cons t ts => cases ts with
      | nil => exact le_refl _
      | cons u ts => exact absurd rfl (h t u ts)

/-- Enough calls at every reading: from an empty bucket on, all of the travel is granted. -/
theorem granted_travel {m k : Nat} (hlim : Limits.Valid ⟨k, m⟩) (ts : List ℚ) (t : ℚ)
    (hscale : ∀ u ∈ t :: ts, ∃ z : Int, u * m = z) (hle : travel (t :: ts) * m ≤ k) :
    (granted (executions ⟨k, m⟩ (some ⟨⟨0, t⟩, 0 + ttl ⟨k, m⟩⟩)
        (ts.flatMap fun u => List.replicate k ⟨0, u⟩)) : ℚ) = travel (t :: ts) * m := by
  have hm : (0 : ℚ) < m := hlim.rate_pos
  have hcap : (1 : ℚ) ≤ k := hlim.one_le_capacity
  have hk : 0 < k := by exact_mod_cast lt_of_lt_of_le one_pos hcap
  induction ts generalizing t with
  | nil => simp [executions, granted, travel]
  | cons u us ih =>
      obtain ⟨n, hn⟩ := exists_credit (hscale t (by simp)) (hscale u (by simp))
      have hrest : 0 ≤ travel (u :: us) * m := mul_nonneg (travel_nonneg _) hm.le
      simp only [travel, add_mul, hn] at hle
      have hnk : n ≤ k := by
        have : (n : ℚ) ≤ k := by linarith
        exact_mod_cast this
      -- the first call at `u` finds what a bucket of `n` tokens would give it
      have hfirst : granted (executions ⟨k, m⟩ (some ⟨⟨0, t⟩, 0 + ttl ⟨k, m⟩⟩)
            ((u :: us).flatMap fun u => List.replicate k ⟨0, u⟩))
          = granted (executions ⟨k, m⟩ (some ⟨⟨n, u⟩, 0 + ttl ⟨k, m⟩⟩)
            (List.replicate k ⟨0, u⟩ ++ us.flatMap fun u => List.replicate k ⟨0, u⟩)) := by
        obtain ⟨k', rfl⟩ : ∃ k', k = k' + 1 := ⟨k - 1, by omega⟩
        rw [List.flatMap_cons, List.replicate_succ, List.cons_append]
        refine granted_congr _ ?_
        rw [Key.read_written hlim, Key.read_written hlim, refilled_some, refilled_some, sub_self,
          max_self, zero_add, hn]
        simp
      have hn0 : (0 : ℚ) ≤ n := n.cast_nonneg
      rw [hfirst, granted_drain hlim u _ k n hnk (by dsimp only; exact_mod_cast hnk)]
      push_cast
      rw [ih u (fun v hv => hscale v (List.mem_cons_of_mem _ hv)) (by linarith)]
      simp only [travel, add_mul, hn]

/-- **The condition on the clocks is exact**: a history that goes over the same time twice
overruns the budget of some limits. -/
theorem exists_overrun {nows : List ℚ} (h : span nows < travel nows) :
    ∃ (lim : Limits) (k : Nat), lim.Valid ∧
      lim.capacity + lim.rate * span nows <
        granted (executions lim none (nows.flatMap fun t => List.replicate k ⟨0, t⟩)) := by
  cases nows with
  | nil => exact absurd h (by simp [span, travel])
  | cons t ts =>
      obtain ⟨m, hm, hscale⟩ := exists_scale (t :: ts)
      have hm' : (0 : ℚ) < m := by exact_mod_cast hm
      obtain ⟨k, hk⟩ := exists_nat_ge (travel (t :: ts) * m + 1)
      have htravel : 0 ≤ travel (t :: ts) * m := mul_nonneg (travel_nonneg _) hm'.le
      have hk1 : (1 : ℚ) ≤ k := by linarith
      have hkpos : 0 < k := by exact_mod_cast lt_of_lt_of_le one_pos hk1
      have hlim : Limits.Valid ⟨k, m⟩ := ⟨hk1, hm'⟩
      refine ⟨⟨k, m⟩, k, hlim, ?_⟩
      -- a new client's bucket is full
      have hfirst : granted (executions ⟨k, m⟩ none
            ((t :: ts).flatMap fun u => List.replicate k ⟨0, u⟩))
          = granted (executions ⟨k, m⟩ (some ⟨⟨k, t⟩, 0 + ttl ⟨k, m⟩⟩)
            (List.replicate k ⟨0, t⟩ ++ ts.flatMap fun u => List.replicate k ⟨0, u⟩)) := by
        obtain ⟨k', rfl⟩ : ∃ k', k = k' + 1 := ⟨k - 1, by omega⟩
        rw [List.flatMap_cons, List.replicate_succ, List.cons_append]
        refine granted_congr _ ?_
        rw [Key.read_written hlim, Key.read_none, refilled_none, refilled_some]
        simp
      rw [hfirst, granted_drain hlim t _ k k (le_refl k) (le_refl _)]
      push_cast
      rw [granted_travel hlim ts t hscale (by linarith)]
      have := mul_lt_mul_of_pos_right h hm'
      linarith

/-! ## The expiry

A key is kept for longer than it takes to fill its bucket, so a bucket that is forgotten would
have been full. -/

/-- The replies of the script on a key that never expires. -/
def persistent (lim : Limits) : Option Bucket → List ℚ → List Reply
  | _, [] => []
  | data, now :: nows =>
      let (bucket, reply) := script lim data now
      reply :: persistent lim (some bucket) nows

/-- The expiry leaves the time to fill the bucket. -/
theorem capacity_le_ttl (hlim : lim.Valid) : lim.capacity ≤ ttl lim * lim.rate := by
  have hrate := hlim.rate_pos
  have hceil : lim.capacity / lim.rate ≤ ⌈lim.capacity / lim.rate⌉ := Int.le_ceil _
  have hmul := mul_le_mul_of_nonneg_right hceil hrate.le
  rw [div_mul_cancel₀ _ hrate.ne'] at hmul
  unfold ttl
  push_cast
  linarith

/-- A bucket that has expired would have been full. -/
theorem refilled_read (hlim : lim.Valid) {b : Bucket} (hb : b.InRange lim) (h : b.ts ≤ now) :
    refilled lim (Key.read (some ⟨b, b.ts + ttl lim⟩) now) now = refilled lim (some b) now := by
  unfold Key.read
  rw [Option.bind_some]
  by_cases hexpired : b.ts + ttl lim < now
  · rw [if_pos hexpired, refilled_none, refilled_some, max_eq_right (by linarith)]
    have hgap : (ttl lim : ℚ) * lim.rate ≤ (now - b.ts) * lim.rate :=
      mul_le_mul_of_nonneg_right (by linarith) hlim.rate_pos.le
    have hcap := capacity_le_ttl hlim
    have hb0 := hb.1
    rw [min_eq_left (by linarith)]
  · rw [if_neg hexpired]

/-- The two runs from the same bucket. -/
theorem replies_eq_persistent (hlim : lim.Valid) (nows : List ℚ) {b : Bucket}
    (hb : b.InRange lim) (hmono : (b.ts :: nows).IsChain (· ≤ ·)) :
    (executions lim (some ⟨b, b.ts + ttl lim⟩) (nows.map fun t => ⟨t, t⟩)).map Prod.snd
      = persistent lim (some b) nows := by
  induction nows generalizing b with
  | nil => rfl
  | cons now nows ih =>
      rw [List.isChain_cons_cons] at hmono
      have hscript := script_congr (refilled_read hlim hb hmono.1)
      have hrange : (script lim (some b) now).1.InRange lim :=
        script_inRange hlim fun b' hb' => Option.mem_some.mp hb' ▸ hb
      have hrest := ih hrange (by rw [script_ts]; exact hmono.2)
      rw [script_ts] at hrest
      simp only [List.map_cons, executions, execute, persistent, hscript, hrest]

/-- **Bucket expiry is transparent**: on a clock that does not go back, every reply is the one
of a key that never expires. -/
theorem expiry_transparent (hlim : lim.Valid) {nows : List ℚ} (hmono : nows.IsChain (· ≤ ·)) :
    (executions lim none (nows.map fun t => ⟨t, t⟩)).map Prod.snd = persistent lim none nows := by
  cases nows with
  | nil => rfl
  | cons now nows =>
      have hrange : (script lim none now).1.InRange lim :=
        script_inRange hlim fun b hb => by cases hb
      have hrest := replies_eq_persistent hlim nows hrange (by rw [script_ts]; exact hmono)
      rw [script_ts] at hrest
      simp only [List.map_cons, executions, execute, persistent, Key.read_none, hrest]

theorem expiry_transparent_forgotten :
    (executions ⟨2, 1⟩ none ([0, 0, 0, 7 / 2, 4].map fun t => ⟨t, t⟩)).map Prod.snd
      = persistent ⟨2, 1⟩ none [0, 0, 0, 7 / 2, 4] :=
  expiry_transparent ⟨by decide +kernel, by decide +kernel⟩ (by decide +kernel)

end WalStream.Middleware

/-
The control plane's `DedupStore` on one database session.

The session does not flush by itself: an object passed to `db.delete` is only marked, and
its `DELETE` is sent at the next commit, while an `INSERT ... ON CONFLICT DO NOTHING` is
executed at once. So a mark that meets the expired row of its key inserts nothing, and the
commit after it may send the delete an earlier `exists` left behind: then the mark is gone.
A statement PostgreSQL refuses (a text too long for its column, or one with a NUL in it)
leaves the transaction aborted, and every later statement is refused.

`expires_at` is a `timestamptz` column and `exists` compares what it reads with
`datetime.utcnow()`, which has no timezone. `tz_aware` says whether the driver returns the
column's values with their timezone, as asyncpg does; then the comparison raises.

The store is compared with a set of marks that live for `ttl`. Calls are instantaneous,
times are microseconds. `marks` is the record of the marks that completed; nothing reads it.
-/
import WalStream.Lib.Dict
import WalStream.Lib.Run

set_option autoImplicit false

namespace WalStream.Control

open Lib

/-! ## The session

The table together with the objects marked for deletion. A commit applies the second to the
first, by key, and does not look whether the row is still the one that was marked. -/

/-- What the store depends on: its TTL, and the driver of the database. -/
structure Config where
  /-- `settings.dedup_ttl_seconds`, in microseconds. -/
  ttl : Nat
  /-- The driver returns `timestamptz` values with their timezone. -/
  tz_aware : Bool

/-- One database session, with the table it works on. `deleted` is what makes it more than the
table: objects that are marked and not deleted yet. -/
structure Session where
  /-- `walstream_dedup.processed_events`: the expiry of every key. -/
  rows : Dict String Int
  /-- The keys of the objects marked for deletion. -/
  deleted : List String
  /-- PostgreSQL refused a statement, and nothing was rolled back since. -/
  aborted : Bool
  /-- The time of the latest call. -/
  clock : Int
  /-- The key and time of every mark that completed. -/
  marks : List (String × Int)

/-- A session on an empty table. -/
def Session.start (now : Int) : Session :=
  { rows := Dict.empty, deleted := [], aborted := false, clock := now, marks := [] }

/-- What a `VARCHAR(n)` column makes of a text; `none` if the text is refused. Blanks over
the length are cut off. -/
def varchar (n : Nat) (text : String) : Option String :=
  if '\x00' ∈ text.toList then none
  else if text.length ≤ n then some text
  else if (text.toList.drop n).all fun c => c == ' ' then
    some (String.ofList (text.toList.take n))
  else none

/-- `db.commit()`: the pending deletes are sent. -/
def Session.commit (s : Session) : Session :=
  { s with rows := s.rows.filter fun e => decide (e.1 ∉ s.deleted), deleted := [] }

/-! ## The store

The four functions as they read in the source, on a session and a time. -/

/-- `exists`; `none` when it raises. -/
def key_exists (cfg : Config) (s : Session) (idempotency_key : String) (now : Int) :
    Session × Option Bool :=
  if s.aborted then (s, none)
  else if '\x00' ∈ idempotency_key.toList then ({ s with aborted := true }, none)
  else
    match s.rows.get? idempotency_key with
    | none => (s, some false)
    | some expires_at =>
        -- an aware and a naive datetime have no order
        if cfg.tz_aware then (s, none)
        else if expires_at < now then
          ({ s with deleted := idempotency_key :: s.deleted }, some false)
        else (s, some true)

/-- `mark_processed`; `none` when it raises. -/
def mark_processed (cfg : Config) (s : Session) (idempotency_key : String)
    (job_id : Option String) (now : Int) : Session × Option Bool :=
  if s.aborted then (s, none)
  else
    match varchar 255 idempotency_key, job_id.all fun id => (varchar 36 id).isSome with
    | some key, true =>
        let new := (s.rows.get? key).isNone
        let rows := if new then s.rows.set key (now + cfg.ttl) else s.rows
        (Session.commit { s with rows := rows, marks := (idempotency_key, now) :: s.marks },
          some new)
    | _, _ => ({ s with aborted := true }, none)

/-- `check_and_mark`: `(was_new, success)`. -/
def check_and_mark (cfg : Config) (s : Session) (idempotency_key : String)
    (job_id : Option String) (now : Int) : Session × Bool × Bool :=
  match mark_processed cfg s idempotency_key job_id now with
  | (s', some was_new) => (s', was_new, true)
  | (s', none) => (s', false, false)

/-- `cleanup_expired`, which does not use its `batch_size`; `none` when it raises. -/
def cleanup_expired (s : Session) (now : Int) : Session × Option Nat :=
  if s.aborted then (s, none)
  else
    (Session.commit { s with rows := s.rows.filter fun e => !decide (e.2 < now) },
      some (s.rows.entries.countP fun e => decide (e.2 < now)))

/-! ## Sequences of calls -/

/-- The four calls of the store, with what they are given. -/
inductive Call
  | key_exists (idempotency_key : String)
  | mark_processed (idempotency_key : String) (job_id : Option String)
  | check_and_mark (idempotency_key : String) (job_id : Option String)
  | cleanup_expired

/-- The session after the call. -/
def Call.run (cfg : Config) (s : Session) (now : Int) : Call → Session
  | .key_exists key => (Control.key_exists cfg s key now).1
  | .mark_processed key job_id => (Control.mark_processed cfg s key job_id now).1
  | .check_and_mark key job_id => (Control.check_and_mark cfg s key job_id now).1
  | .cleanup_expired => (Control.cleanup_expired s now).1

/-- A call at a time that is not before the last one. -/
def step (cfg : Config) (s : Session) (a : Call × Int) : Option Session :=
  if s.clock ≤ a.2 then some { a.1.run cfg s a.2 with clock := a.2 } else none

/-! ## The set it stands for

What a caller takes the store for: a set of keys, each of which lives for `ttl` from its mark.
Here a session is compared with the marks that were made. -/

/-- Some completed mark of the key still lives at `t`. -/
def live (cfg : Config) (marks : List (String × Int)) (key : String) (t : Int) : Bool :=
  marks.any fun m => decide (m.1 = key) && decide (t ≤ m.2 + cfg.ttl)

/-- Asked for any key from now on, `exists` answers, and answers `True` exactly for the
keys that live. A text with a NUL is none of PostgreSQL's. -/
def IsTtlSet (cfg : Config) (s : Session) : Prop :=
  ∀ key t, '\x00' ∉ key.toList → s.clock ≤ t →
    (key_exists cfg s key t).2 = some (live cfg s.marks key t)

/-- `was_new` of the call is what a negative answer of `exists` just before it says. -/
def WasNewRight (cfg : Config) (s : Session) (a : Call × Int) : Prop :=
  ∀ key job_id, a.1 = .check_and_mark key job_id →
    ((check_and_mark cfg s key job_id a.2).2.1 = true ↔
      (key_exists cfg s key a.2).2 = some false)

/-- The texts of a mark fit their columns. -/
def Fits (key : String) (job_id : Option String) : Prop :=
  varchar 255 key = some key ∧ (job_id.all fun id => (varchar 36 id).isSome) = true

/-- A mark that finds no row of its key, or one of the same moment. -/
def FreshMark (cfg : Config) (s : Session) (key : String) (job_id : Option String)
    (now : Int) : Prop :=
  cfg.tz_aware = false ∧ Fits key job_id ∧
    ∀ expires_at, s.rows.get? key = some expires_at → expires_at = now + cfg.ttl

/-- The condition on the calls: every text is one PostgreSQL takes, the comparison of
`exists` does not raise, and no mark meets an older row of its key. -/
def Clean (cfg : Config) (s : Session) : Call × Int → Prop
  | (.key_exists key, _) => '\x00' ∉ key.toList
  | (.mark_processed key job_id, now) => FreshMark cfg s key job_id now
  | (.check_and_mark key job_id, now) => FreshMark cfg s key job_id now
  | (.cleanup_expired, _) => True

instance (cfg : Config) (s : Session) (key : String) (job_id : Option String) (now : Int) :
    Decidable (FreshMark cfg s key job_id now) :=
  decidable_of_iff (cfg.tz_aware = false ∧ (varchar 255 key = some key ∧
      (job_id.all fun id => (varchar 36 id).isSome) = true) ∧
      ((s.rows.get? key).all fun expires_at => decide (expires_at = now + cfg.ttl)) = true) (by
    rw [FreshMark, Fits]
    cases s.rows.get? key <;> simp)

instance (cfg : Config) (s : Session) : (a : Call × Int) → Decidable (Clean cfg s a)
  | (.key_exists key, _) => inferInstanceAs (Decidable ('\x00' ∉ key.toList))
  | (.mark_processed key job_id, now) => inferInstanceAs (Decidable (FreshMark cfg s key job_id now))
  | (.check_and_mark key job_id, now) => inferInstanceAs (Decidable (FreshMark cfg s key job_id now))
  | (.cleanup_expired, _) => isTrue trivial

/-! ## What `exists` answers

The answer depends on the row and the driver. The pending deletes, which `exists` adds to, have
no influence on it. -/

variable {cfg : Config} {s t : Session} {key : String} {job_id : Option String} {now : Int}

/-- The answer, as long as no statement was refused. -/
def answer (cfg : Config) (rows : Dict String Int) (key : String) (now : Int) : Option Bool :=
  match rows.get? key with
  | none => some false
  | some expires_at => if cfg.tz_aware then none else some (decide (now ≤ expires_at))

/-- A key without a row is not there, by any driver. -/
theorem answer_of_none {rows : Dict String Int} (h : rows.get? key = none) :
    answer cfg rows key now = some false := by
  simp [answer, h]

/-- A row is compared with the clock, which needs a driver that drops the timezone. -/
theorem answer_of_some {rows : Dict String Int} {expires_at : Int}
    (hnaive : cfg.tz_aware = false) (h : rows.get? key = some expires_at) :
    answer cfg rows key now = some (decide (now ≤ expires_at)) := by
  simp [answer, h, hnaive]

/-- What is answered with `True` is a row that has not expired. -/
theorem row_of_answer {rows : Dict String Int} (h : answer cfg rows key now = some true) :
    cfg.tz_aware = false ∧ ∃ expires_at, rows.get? key = some expires_at ∧ now ≤ expires_at := by
  unfold answer at h
  split at h
  · cases h
  · rename_i expires_at hrow
    split at h
    · cases h
    · rename_i hnaive
      exact ⟨by simpa using hnaive, expires_at, hrow, by simpa using h⟩

/-- `exists` answers by the row alone. It also marks an expired row for deletion, but that
changes no answer, since an expired row is answered like none. -/
theorem key_exists_answer (h : s.aborted = false) (hnul : '\x00' ∉ key.toList) :
    (key_exists cfg s key now).2 = answer cfg s.rows key now := by
  simp only [key_exists, h, Bool.false_eq_true, if_false, hnul, answer]
  split
  · rfl
  · rename_i expires_at _
    by_cases haware : cfg.tz_aware = true
    · simp [haware]
    · by_cases hexpired : expires_at < now
      · simp [haware, hexpired]
      · simp [haware, hexpired, Int.not_lt.mp hexpired]

/-- The set, in terms of the rows: no transaction is aborted, and the rows answer as the marks
do. The rest of the file works with this form. -/
theorem isTtlSet_iff : IsTtlSet cfg s ↔ s.aborted = false ∧
    ∀ key t, '\x00' ∉ key.toList → s.clock ≤ t →
      answer cfg s.rows key t = some (live cfg s.marks key t) := by
  constructor
  · intro h
    have hnot : s.aborted = false := by
      have hempty := h "" s.clock (by decide) (Int.le_refl _)
      cases haborted : s.aborted with
      | false => rfl
      | true =>
          rw [key_exists, if_pos haborted] at hempty
          cases hempty
    refine ⟨hnot, fun key t hnul ht => ?_⟩
    rw [← key_exists_answer hnot hnul, h key t hnul ht]
  · rintro ⟨hnot, h⟩ key t hnul ht
    rw [key_exists_answer hnot hnul, h key t hnul ht]

/-! ## What a call does to the table

Each call in terms of rows by key. -/

/-- A commit sends the pending deletes, each by its key, whatever stands in the row by then. -/
theorem get?_commit (s : Session) (key : String) :
    s.commit.rows.get? key = if key ∈ s.deleted then none else s.rows.get? key := by
  apply Option.ext
  intro expires_at
  rw [Session.commit, Dict.get?_filter_eq_some_iff]
  by_cases h : key ∈ s.deleted
  · simp [h]
  · simp [h]

/-- The statement of a mark whose texts fit, executed. -/
def Session.insert (cfg : Config) (s : Session) (key : String) (now : Int) : Session :=
  { s with rows := if (s.rows.get? key).isNone then s.rows.set key (now + cfg.ttl) else s.rows,
           marks := (key, now) :: s.marks }

/-- A mark whose texts fit: the insert is executed, the commit sends the pending deletes after
it, and the answer says whether there was a row before. The order of the two is what loses a
mark. -/
theorem mark_of_fits (h : s.aborted = false) (hfits : Fits key job_id) :
    mark_processed cfg s key job_id now =
      ((s.insert cfg key now).commit, some (s.rows.get? key).isNone) := by
  simp only [mark_processed, h, Bool.false_eq_true, if_false, hfits.1, hfits.2, Session.insert]

/-- An insert does nothing where there is a row. -/
theorem get?_insert (cfg : Config) (s : Session) (key k : String) (now : Int) :
    (s.insert cfg key now).rows.get? k =
      if k = key ∧ s.rows.get? key = none then some (now + cfg.ttl) else s.rows.get? k := by
  cases hget : s.rows.get? key with
  | none =>
      simp only [Session.insert, hget, Option.isNone_none, if_true, Dict.get?_set, and_true]
  | some expires_at => simp [Session.insert, hget]

/-- The two marking calls do the same to the session and differ in what they answer. -/
theorem check_and_mark_fst (cfg : Config) (s : Session) (key : String) (job_id : Option String)
    (now : Int) : (check_and_mark cfg s key job_id now).1 =
      (mark_processed cfg s key job_id now).1 := by
  unfold check_and_mark
  split <;> rename_i h <;> rw [h]

/-! ## The bookkeeping

The pending deletes are of rows that have expired. As long as that is so, sending them takes no
answer away; the mark of a key whose expired row is still there is where it fails. -/

/-- What the table and the pending deletes have to do with the calls so far: every row is
one a mark inserted, and only expired rows are marked for deletion. -/
structure Kept (cfg : Config) (s : Session) : Prop where
  rows_fit : ∀ key expires_at, s.rows.get? key = some expires_at → varchar 255 key = some key
  rows_bounded : ∀ key expires_at, s.rows.get? key = some expires_at →
    expires_at ≤ s.clock + cfg.ttl
  deleted_expired : ∀ key ∈ s.deleted, ∃ expires_at, s.rows.get? key = some expires_at ∧
    expires_at < s.clock

/-- At the start nothing has been inserted or marked. -/
theorem Kept.start (cfg : Config) (now : Int) : Kept cfg (Session.start now) where
  rows_fit := by intro key expires_at h; cases h
  rows_bounded := by intro key expires_at h; cases h
  deleted_expired := by intro key h; cases h

/-- The bookkeeping survives time. -/
theorem Kept.later (h : Kept cfg s) (hnow : s.clock ≤ now) : Kept cfg { s with clock := now } where
  rows_fit := h.rows_fit
  rows_bounded := by
    intro key expires_at hrow
    have hbound := h.rows_bounded key expires_at hrow
    change expires_at ≤ now + cfg.ttl
    omega
  deleted_expired := by
    intro key hkey
    obtain ⟨expires_at, hrow, hexpired⟩ := h.deleted_expired key hkey
    exact ⟨expires_at, hrow, Int.lt_of_lt_of_le hexpired hnow⟩

/-- A commit leaves no pending delete, and no new row. -/
theorem Kept.commit (hfit : ∀ key expires_at, s.rows.get? key = some expires_at →
      varchar 255 key = some key)
    (hbound : ∀ key expires_at, s.rows.get? key = some expires_at →
      expires_at ≤ s.clock + cfg.ttl) : Kept cfg s.commit where
  rows_fit := by
    intro key expires_at hrow
    rw [get?_commit] at hrow
    split at hrow
    · cases hrow
    · exact hfit key expires_at hrow
  rows_bounded := by
    intro key expires_at hrow
    rw [get?_commit] at hrow
    split at hrow
    · cases hrow
    · exact hbound key expires_at hrow
  deleted_expired := by intro key h; cases h

/-- A row that has not expired is not marked for deletion. -/
theorem Kept.not_deleted (h : Kept cfg s) (hnow : s.clock ≤ now) {expires_at : Int}
    (hrow : s.rows.get? key = some expires_at) (hlive : now ≤ expires_at) : key ∉ s.deleted := by
  intro hkey
  obtain ⟨expires_at', hrow', hexpired⟩ := h.deleted_expired key hkey
  rw [hrow, Option.some.injEq] at hrow'
  omega

/-- Without a row there is nothing to delete. -/
theorem Kept.not_deleted_of_none (h : Kept cfg s) (hrow : s.rows.get? key = none) :
    key ∉ s.deleted := by
  intro hkey
  obtain ⟨_, hrow', _⟩ := h.deleted_expired key hkey
  rw [hrow] at hrow'
  cases hrow'

/-- `rows` are rows of the session, and those left out have expired. -/
def Drops (s : Session) (rows : Dict String Int) : Prop :=
  ∀ key, rows.get? key = s.rows.get? key ∨
    (rows.get? key = none ∧ ∃ expires_at, s.rows.get? key = some expires_at ∧ expires_at < s.clock)

/-- What a commit leaves out has expired, so no answer is lost by it. -/
theorem Kept.commit_drops (h : Kept cfg s) : Drops s s.commit.rows := by
  intro key
  rw [get?_commit]
  by_cases hkey : key ∈ s.deleted
  · exact Or.inr ⟨if_pos hkey, h.deleted_expired key hkey⟩
  · exact Or.inl (if_neg hkey)

/-- An expired row is answered like none. -/
theorem answer_expired (h : IsTtlSet cfg s) {expires_at : Int} (hnul : '\x00' ∉ key.toList)
    (hrow : s.rows.get? key = some expires_at) (hexpired : expires_at < now)
    (hnow : s.clock ≤ now) : answer cfg s.rows key now = some false := by
  have hanswer := (isTtlSet_iff.mp h).2 key now hnul hnow
  cases hlive : live cfg s.marks key now with
  | false => rw [hanswer, hlive]
  | true =>
      rw [hlive] at hanswer
      obtain ⟨_, expires_at', hrow', hle⟩ := row_of_answer hanswer
      rw [hrow, Option.some.injEq] at hrow'
      omega

/-! ## One call

The calls in turn: asking and cleaning up keep the set, a mark adds to it when it is fresh and
loses itself when it is not. -/

/-- The table, the marks and the transaction decide; the pending deletes do not. -/
theorem IsTtlSet.congr (h : IsTtlSet cfg s) (hrows : t.rows = s.rows) (hmarks : t.marks = s.marks)
    (haborted : t.aborted = s.aborted) (hclock : s.clock ≤ t.clock) : IsTtlSet cfg t := by
  obtain ⟨hnot, hanswer⟩ := isTtlSet_iff.mp h
  refine isTtlSet_iff.mpr ⟨haborted.trans hnot, fun key at_time hnul hat => ?_⟩
  rw [hrows, hmarks, hanswer key at_time hnul (Int.le_trans hclock hat)]

/-- Leaving out expired rows changes no answer. -/
theorem IsTtlSet.drop (h : IsTtlSet cfg s) (hrows : Drops s t.rows) (hmarks : t.marks = s.marks)
    (haborted : t.aborted = s.aborted) (hclock : t.clock = s.clock) : IsTtlSet cfg t := by
  obtain ⟨hnot, hanswer⟩ := isTtlSet_iff.mp h
  refine isTtlSet_iff.mpr ⟨haborted.trans hnot, fun key at_time hnul hat => ?_⟩
  rw [hclock] at hat
  rw [hmarks, ← hanswer key at_time hnul hat]
  rcases hrows key with hsame | ⟨hnone, expires_at, hrow, hexpired⟩
  · rw [answer, answer, hsame]
  · rw [answer_of_none hnone, answer_expired h hnul hrow (Int.lt_of_lt_of_le hexpired hat) hat]

/-- The time of a call may be set first. -/
theorem run_at (cfg : Config) (s : Session) (now : Int) (call : Call) :
    { call.run cfg s now with clock := now } = call.run cfg { s with clock := now } now := by
  cases call with
  | key_exists key =>
      simp only [Call.run, key_exists]
      repeat' split
      all_goals rfl
  | mark_processed key job_id =>
      simp only [Call.run, mark_processed, Session.commit]
      repeat' split
      all_goals rfl
  | check_and_mark key job_id =>
      simp only [Call.run, check_and_mark_fst, mark_processed, Session.commit]
      repeat' split
      all_goals rfl
  | cleanup_expired =>
      simp only [Call.run, cleanup_expired, Session.commit]
      split <;> rfl

/-- **Asking.** An expired row may be marked for deletion by it; as it is answered like no row,
the set is the same. -/
theorem exists_keeps (hset : IsTtlSet cfg s) (hkept : Kept cfg s) (hnul : '\x00' ∉ key.toList) :
    IsTtlSet cfg (key_exists cfg s key s.clock).1 ∧ Kept cfg (key_exists cfg s key s.clock).1 := by
  have hnot := (isTtlSet_iff.mp hset).1
  simp only [key_exists, hnot, Bool.false_eq_true, if_false, hnul]
  split
  · exact ⟨hset, hkept⟩
  · rename_i expires_at hrow
    split
    · exact ⟨hset, hkept⟩
    · split
      · rename_i hexpired
        refine ⟨hset.congr rfl rfl hnot.symm (Int.le_refl _), hkept.rows_fit, hkept.rows_bounded, ?_⟩
        -- the row found has expired, and stays until the next commit
        intro k hk
        rcases List.mem_cons.mp hk with rfl | hk
        · exact ⟨expires_at, hrow, hexpired⟩
        · exact hkept.deleted_expired k hk
      · exact ⟨hset, hkept⟩

/-- A text that PostgreSQL refuses ends the set. -/
theorem not_isTtlSet_of_aborted (h : s.aborted = true) : ¬ IsTtlSet cfg s := by
  intro hset
  have hnot := (isTtlSet_iff.mp hset).1
  rw [h] at hnot
  cases hnot

/-- A text with a NUL is refused by PostgreSQL, which aborts the transaction and ends the set. -/
theorem nul_free_of_exists (h : IsTtlSet cfg (key_exists cfg s key now).1) :
    '\x00' ∉ key.toList := by
  intro hnul
  by_cases haborted : s.aborted = true
  · rw [key_exists, if_pos haborted] at h
    exact not_isTtlSet_of_aborted haborted h
  · rw [key_exists, if_neg haborted, if_pos hnul] at h
    exact not_isTtlSet_of_aborted rfl h

/-- **Cleaning up.** The rows it deletes have expired. -/
theorem cleanup_keeps (hset : IsTtlSet cfg s) (hkept : Kept cfg s) :
    IsTtlSet cfg (cleanup_expired s s.clock).1 ∧ Kept cfg (cleanup_expired s s.clock).1 := by
  have hnot := (isTtlSet_iff.mp hset).1
  rw [cleanup_expired, if_neg (by simp [hnot])]
  -- a row that is left is a row that was there, and has not expired
  have hleft : ∀ k expires_at,
      (s.rows.filter fun e => !decide (e.2 < s.clock)).get? k = some expires_at ↔
        s.rows.get? k = some expires_at ∧ s.clock ≤ expires_at := by
    intro k expires_at
    rw [Dict.get?_filter_eq_some_iff]
    simp
  constructor
  · refine hset.drop ?_ rfl rfl rfl
    intro k
    cases hrow : s.rows.get? k with
    | none =>
        left
        apply Option.eq_none_iff_forall_not_mem.mpr
        intro expires_at hmem
        rw [Option.mem_def, get?_commit] at hmem
        split at hmem
        · cases hmem
        · have := ((hleft k expires_at).mp hmem).1
          rw [hrow] at this
          cases this
    | some expires_at =>
        rw [get?_commit]
        by_cases hlive : s.clock ≤ expires_at
        · left
          rw [if_neg (hkept.not_deleted (Int.le_refl _) hrow hlive)]
          exact (hleft k expires_at).mpr ⟨hrow, hlive⟩
        · right
          refine ⟨?_, expires_at, rfl, Int.not_le.mp hlive⟩
          apply Option.eq_none_iff_forall_not_mem.mpr
          intro expires_at' hmem
          rw [Option.mem_def] at hmem
          split at hmem
          · cases hmem
          · obtain ⟨hrow', hlive'⟩ := (hleft k expires_at').mp hmem
            rw [hrow, Option.some.injEq] at hrow'
            omega
  · apply Kept.commit
    · intro k expires_at hrow
      exact hkept.rows_fit k expires_at ((hleft k expires_at).mp hrow).1
    · intro k expires_at hrow
      exact hkept.rows_bounded k expires_at ((hleft k expires_at).mp hrow).1

/-- One mark more. -/
theorem live_cons (marks : List (String × Int)) (k : String) (at_time : Int) :
    live cfg ((key, now) :: marks) k at_time =
      (decide (key = k) && decide (at_time ≤ now + cfg.ttl) || live cfg marks k at_time) := rfl

/-- The rows after a fresh mark: that of the key, and those the commit left. -/
theorem get?_insert_commit (hkept : Kept cfg s) (hfresh : FreshMark cfg s key job_id s.clock)
    (k : String) : (s.insert cfg key s.clock).commit.rows.get? k =
      if k = key then some (s.clock + cfg.ttl) else s.commit.rows.get? k := by
  have hdeleted : (s.insert cfg key s.clock).deleted = s.deleted := rfl
  rw [get?_commit, get?_commit, hdeleted, get?_insert]
  by_cases hk : k = key
  · subst hk
    cases hget : s.rows.get? k with
    | none => rw [if_neg (hkept.not_deleted_of_none hget), if_pos ⟨rfl, rfl⟩, if_pos rfl]
    | some expires_at =>
        obtain rfl := hfresh.2.2 expires_at hget
        rw [if_neg (hkept.not_deleted (Int.le_refl _) hget (by omega)), if_neg (by simp), if_pos rfl]
  · have hother : ¬ (k = key ∧ s.rows.get? key = none) := fun h => hk h.1
    rw [if_neg hother, if_neg hk]

/-- A fresh mark is added to the set. -/
theorem mark_keeps (hset : IsTtlSet cfg s) (hkept : Kept cfg s)
    (hfresh : FreshMark cfg s key job_id s.clock) :
    IsTtlSet cfg (mark_processed cfg s key job_id s.clock).1 ∧
      Kept cfg (mark_processed cfg s key job_id s.clock).1 := by
  have hnot := (isTtlSet_iff.mp hset).1
  have hcommit : IsTtlSet cfg s.commit := hset.drop hkept.commit_drops rfl rfl rfl
  rw [mark_of_fits hnot hfresh.2.1]
  constructor
  · refine isTtlSet_iff.mpr ⟨hnot, fun k at_time hnul hat => ?_⟩
    have hrow := get?_insert_commit hkept hfresh k
    have hanswer := (isTtlSet_iff.mp hcommit).2 k at_time hnul hat
    change _ = some (live cfg ((key, s.clock) :: s.marks) k at_time)
    rw [live_cons]
    change _ = some (live cfg s.marks k at_time) at hanswer
    by_cases hk : k = key
    · subst hk
      rw [if_pos rfl] at hrow
      rw [answer_of_some hfresh.1 hrow, decide_eq_true rfl, Bool.true_and]
      -- an earlier mark of the key has no row, or the same row
      cases hget : s.rows.get? k with
      | none =>
          have hnone : s.commit.rows.get? k = none := by
            rw [get?_commit, if_neg (hkept.not_deleted_of_none hget), hget]
          rw [answer_of_none hnone, Option.some.injEq] at hanswer
          rw [← hanswer, Bool.or_false]
      | some expires_at =>
          have hsame := hfresh.2.2 expires_at hget
          rw [hsame] at hget
          have hnotdel := hkept.not_deleted (Int.le_refl _) hget (by omega)
          have hleft : s.commit.rows.get? k = some (s.clock + cfg.ttl) := by
            rw [get?_commit, if_neg hnotdel, hget]
          rw [answer_of_some hfresh.1 hleft, Option.some.injEq] at hanswer
          rw [← hanswer, Bool.or_self]
    · rw [if_neg hk] at hrow
      rw [answer, hrow, ← answer, hanswer, decide_eq_false (Ne.symm hk), Bool.false_and,
        Bool.false_or]
  · apply Kept.commit
    · intro k expires_at hrow
      rw [get?_insert] at hrow
      split at hrow
      · rename_i hk
        rw [hk.1]
        exact hfresh.2.1.1
      · exact hkept.rows_fit k expires_at hrow
    · intro k expires_at hrow
      rw [get?_insert] at hrow
      split at hrow
      · obtain rfl := Option.some.inj hrow
        exact Int.le_refl _
      · exact hkept.rows_bounded k expires_at hrow

/-- A text a column takes has no NUL in it. -/
theorem nul_free_of_varchar {n : Nat} {text kept : String} (h : varchar n text = some kept) :
    '\x00' ∉ text.toList := by
  intro hnul
  rw [varchar, if_pos hnul] at h
  cases h

/-- After a mark that was not fresh, the store is not the set any more. -/
theorem fresh_of_mark (hset : IsTtlSet cfg s) (hkept : Kept cfg s)
    (h : IsTtlSet cfg (mark_processed cfg s key job_id s.clock).1) :
    FreshMark cfg s key job_id s.clock := by
  have hnot := (isTtlSet_iff.mp hset).1
  simp only [mark_processed, hnot, Bool.false_eq_true, if_false] at h
  split at h
  · rename_i key' hkey hjob
    -- the mark completed, so the key lives to the end of its time
    obtain ⟨_, hanswer⟩ := isTtlSet_iff.mp h
    have hlives := hanswer key (s.clock + cfg.ttl) (nul_free_of_varchar hkey)
      (Int.le_add_of_nonneg_right (Int.natCast_nonneg _))
    change _ = some (live cfg ((key, s.clock) :: s.marks) key (s.clock + cfg.ttl)) at hlives
    rw [live_cons, decide_eq_true rfl, decide_eq_true (Int.le_refl _), Bool.and_self,
      Bool.true_or] at hlives
    obtain ⟨hnaive, expires_at, hrow, hlast⟩ := row_of_answer hlives
    rw [get?_commit] at hrow
    by_cases hdeleted : key ∈ s.deleted
    · rw [if_pos hdeleted] at hrow
      cases hrow
    · rw [if_neg hdeleted] at hrow
      -- the row is that of the whole key, since every key stored fits
      have hsame : key' = key := by
        by_contra hne
        have hold : s.rows.get? key = some expires_at := by
          split at hrow
          · rwa [Dict.get?_set, if_neg (Ne.symm hne)] at hrow
          · exact hrow
        have hfit := hkept.rows_fit key expires_at hold
        rw [hkey, Option.some.injEq] at hfit
        exact hne hfit
      subst hsame
      refine ⟨hnaive, ⟨hkey, hjob⟩, ?_⟩
      intro expires_at₀ hget
      rw [hget, Option.isNone_some, if_neg Bool.false_ne_true, hget, Option.some.injEq] at hrow
      have hbound := hkept.rows_bounded _ _ hget
      omega
  · exact absurd h (not_isTtlSet_of_aborted rfl)

/-! ## Runs -/

/-- A call keeps the set exactly when it is clean. -/
theorem call_keeps_iff (hset : IsTtlSet cfg s) (hkept : Kept cfg s) (call : Call) :
    IsTtlSet cfg (call.run cfg s s.clock) ↔ Clean cfg s (call, s.clock) := by
  cases call with
  | key_exists key =>
      exact ⟨nul_free_of_exists, fun hclean => (exists_keeps hset hkept hclean).1⟩
  | mark_processed key job_id =>
      exact ⟨fresh_of_mark hset hkept, fun hclean => (mark_keeps hset hkept hclean).1⟩
  | check_and_mark key job_id =>
      rw [Call.run, check_and_mark_fst]
      exact ⟨fresh_of_mark hset hkept, fun hclean => (mark_keeps hset hkept hclean).1⟩
  | cleanup_expired => exact ⟨fun _ => trivial, fun _ => (cleanup_keeps hset hkept).1⟩

/-- A clean call keeps the bookkeeping as well as the set. -/
theorem call_kept (hset : IsTtlSet cfg s) (hkept : Kept cfg s) (call : Call)
    (hclean : Clean cfg s (call, s.clock)) : Kept cfg (call.run cfg s s.clock) := by
  cases call with
  | key_exists key => exact (exists_keeps hset hkept hclean).2
  | mark_processed key job_id => exact (mark_keeps hset hkept hclean).2
  | check_and_mark key job_id =>
      rw [Call.run, check_and_mark_fst]
      exact (mark_keeps hset hkept hclean).2
  | cleanup_expired => exact (cleanup_keeps hset hkept).2

/-- Whether a call is clean does not depend on when the last one was. -/
theorem clean_at (a : Call × Int) (time : Int) :
    Clean cfg { s with clock := time } a ↔ Clean cfg s a := by
  obtain ⟨call, now⟩ := a
  cases call <;> exact Iff.rfl

/-- **The inversion of `step`.** A call is made at its own time, which may be later than the
last one. -/
theorem step_cases {a : Call × Int} (h : step cfg s a = some t) :
    s.clock ≤ a.2 ∧ t = a.1.run cfg { s with clock := a.2 } a.2 := by
  unfold step at h
  split at h
  · rename_i hle
    rw [run_at, Option.some.injEq] at h
    exact ⟨hle, h.symm⟩
  · cases h

/-- **One call.** From a store that is the set it leads to one exactly if it is clean. -/
theorem step_keeps_iff {a : Call × Int} (hset : IsTtlSet cfg s) (hkept : Kept cfg s)
    (h : step cfg s a = some t) : IsTtlSet cfg t ↔ Clean cfg s a := by
  obtain ⟨hle, rfl⟩ := step_cases h
  have hset' : IsTtlSet cfg { s with clock := a.2 } := hset.congr rfl rfl rfl hle
  rw [← clean_at a a.2]
  exact call_keeps_iff hset' (hkept.later hle) a.1

/-- The bookkeeping goes along wherever the set does. -/
theorem step_kept {a : Call × Int} (hset : IsTtlSet cfg s) (hkept : Kept cfg s)
    (h : step cfg s a = some t) (hset' : IsTtlSet cfg t) : Kept cfg t := by
  have hclean := (step_keeps_iff hset hkept h).mp hset'
  obtain ⟨hle, rfl⟩ := step_cases h
  have hset'' : IsTtlSet cfg { s with clock := a.2 } := hset.congr rfl rfl rfl hle
  exact call_kept hset'' (hkept.later hle) a.1 ((clean_at a a.2).mpr hclean)

/-- An empty table is the empty set. -/
theorem isTtlSet_start (cfg : Config) (now : Int) : IsTtlSet cfg (Session.start now) :=
  isTtlSet_iff.mpr ⟨rfl, fun _ _ _ _ => rfl⟩

/-- The answers of a clean `check_and_mark` are those of the set. -/
theorem wasNewRight_of_clean {a : Call × Int} (hset : IsTtlSet cfg s) (hle : s.clock ≤ a.2)
    (hclean : Clean cfg s a) : WasNewRight cfg s a := by
  intro key job_id hcall
  obtain ⟨call, now⟩ := a
  obtain rfl : call = .check_and_mark key job_id := hcall
  obtain ⟨hnaive, hfits, hrow⟩ := hclean
  have hnot := (isTtlSet_iff.mp hset).1
  rw [key_exists_answer hnot (nul_free_of_varchar hfits.1), check_and_mark, mark_of_fits hnot hfits]
  cases hget : s.rows.get? key with
  | none => simp [answer_of_none hget]
  | some expires_at =>
      obtain rfl := hrow expires_at hget
      have hlives : now ≤ now + (cfg.ttl : Int) := by omega
      simp [answer_of_some hnaive hget, hlives]

/-- The settings' seven days. -/
def sevenDays (tz_aware : Bool) : Config := { ttl := 604800000000, tz_aware := tz_aware }

/-- With a driver that keeps timezones, a marked key is not answered at all; with one that
drops them, a mark after the `exists` of an expired key is deleted by its own commit. -/
theorem mark_is_lost :
    (¬ ∀ tr s, Run (step (sevenDays true)) (Session.start 0) tr s → IsTtlSet (sevenDays true) s) ∧
      ¬ ∀ tr s, Run (step (sevenDays false)) (Session.start 0) tr s →
        IsTtlSet (sevenDays false) s := by
  constructor
  · intro hall
    have hmarked : ∃ tr s, Run (step (sevenDays true)) (Session.start 0) tr s ∧
        s.clock ≤ 0 ∧ (key_exists (sevenDays true) s "k" 0).2 = none :=
      exists_run_of_exec [(.mark_processed "k" none, 0)] (by decide)
    obtain ⟨tr, s, hrun, hclock, hraises⟩ := hmarked
    have hanswer := hall tr s hrun "k" 0 (by decide) hclock
    rw [hraises] at hanswer
    cases hanswer
  · intro hall
    have hmarked : ∃ tr s, Run (step (sevenDays false)) (Session.start 0) tr s ∧
        s.clock ≤ 604800000002 ∧
        (key_exists (sevenDays false) s "k" 604800000002).2 = some false ∧
        live (sevenDays false) s.marks "k" 604800000002 = true :=
      exists_run_of_exec [(.mark_processed "k" none, 0), (.key_exists "k", 604800000001),
        (.mark_processed "k" none, 604800000002)] (by decide)
    obtain ⟨tr, s, hrun, hclock, hanswer, hlive⟩ := hmarked
    have hset := hall tr s hrun "k" 604800000002 (by decide) hclock
    rw [hanswer, hlive] at hset
    cases hset

/-- **The TTL set.** Along a run of calls the store is the set of the marks that live, and
`was_new` says what `exists` would have, exactly when every call is clean. -/
theorem ttl_set_iff {tr : List (Session × (Call × Int))}
    (hrun : Run (step cfg) (Session.start now) tr s) :
    ((∀ p ∈ tr, IsTtlSet cfg p.1 ∧ WasNewRight cfg p.1 p.2) ∧ IsTtlSet cfg s) ↔
      StepsMeet (Clean cfg) tr := by
  have hexact := Run.exact (P := IsTtlSet cfg) (J := Kept cfg)
    (fun _ _ _ hset hkept hstep => step_keeps_iff hset hkept hstep)
    (fun _ _ _ hset hkept hstep hset' => step_kept hset hkept hstep hset')
    (isTtlSet_start cfg now) (Kept.start cfg now) hrun
  rw [← hexact]
  constructor
  · rintro ⟨hall, hend⟩
    exact ⟨fun p hp => (hall p hp).1, hend⟩
  · rintro ⟨hall, hend⟩
    have hclean := hexact.mp ⟨hall, hend⟩
    refine ⟨fun p hp => ⟨hall p hp, ?_⟩, hend⟩
    obtain ⟨u, hu⟩ := hrun.enabled p hp
    exact wasNewRight_of_clean (hall p hp) (step_cases hu).1 (hclean p hp)

/-- The condition is met by a key that is marked, asked for, cleaned up when it has expired,
and marked again. -/
theorem ttl_set_sample : ∃ tr s, Run (step (sevenDays false)) (Session.start 0) tr s ∧
    (∀ p ∈ tr, IsTtlSet (sevenDays false) p.1 ∧ WasNewRight (sevenDays false) p.1 p.2) ∧
    IsTtlSet (sevenDays false) s ∧ live (sevenDays false) s.marks "k" 604800000009 = true := by
  have hmarked : ∃ tr s, Run (step (sevenDays false)) (Session.start 0) tr s ∧
      StepsMeet (Clean (sevenDays false)) tr ∧
      live (sevenDays false) s.marks "k" 604800000009 = true :=
    exists_run_meeting_of_exec [(.mark_processed "k" none, 0), (.key_exists "k", 604800000001),
      (.cleanup_expired, 604800000002), (.check_and_mark "k" (some "job"), 604800000003)]
      (by decide) (by decide)
  obtain ⟨tr, s, hrun, hclean, hlive⟩ := hmarked
  obtain ⟨hall, hend⟩ := (ttl_set_iff hrun).mpr hclean
  exact ⟨tr, s, hrun, hall, hend, hlive⟩

end WalStream.Control

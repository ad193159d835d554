/-
`RedisReplaySource`: replay from the Redis stream, by cursor-based `XRANGE`.

`stream_events` is a generator. Its state is kept explicit here, and `RedisStream.step`
is what it does between two suspensions: one `XRANGE` call, one `yield`, or the end of
the loop. The stream itself is the environment's and may have grown between two steps.

The second half of the file says what a step means for the entries behind the cursor.
`RedisStream.Passed` is the set of entries the generator is done with, and the four spec
lemmas (`open_passed`, `step_more`, `step_yield`, `step_done`) are all that later files
use about the generator.
-/
import WalStream.Source.Event
import WalStream.Lib.Log

set_option autoImplicit false

namespace WalStream.Source

open Lib

/-! ## The stream and `XRANGE` -/

/-- An entry of the Redis stream as `publish_to_redis` adds it: the id Redis gave it and
the serialized record. -/
structure RedisEntry where
  id : StreamId
  record : ChangeRecord
deriving DecidableEq

/-- Redis only hands out increasing ids. -/
def RedisSorted (stream : List RedisEntry) : Prop := stream.Pairwise fun a b => a.id < b.id

/-- The `min` argument of `XRANGE`: `str(start_ms)`, which Redis completes to
`start_ms-0`, or `(id`, the exclusive bound. -/
inductive RangeStart
  | inclusive (ms : Nat)
  | exclusive (id : StreamId)

/-- The ids at or after the lower bound. -/
def RangeStart.admits : RangeStart → StreamId → Bool
  | .inclusive ms, id => decide (ms ≤ id.ms)
  | .exclusive c, id => decide (c < id)

/-- `XRANGE stream min max COUNT count`, with `max = str(end_ms)`, which Redis completes
to the last id of that millisecond. -/
def xrange (stream : List RedisEntry) (min : RangeStart) (max : Nat) : List RedisEntry :=
  stream.filter fun e => min.admits e.id && decide (e.id.ms ≤ max)

theorem mem_xrange {stream : List RedisEntry} {min : RangeStart} {max : Nat} {e : RedisEntry} :
    e ∈ xrange stream min max ↔ e ∈ stream ∧ min.admits e.id = true ∧ e.id.ms ≤ max := by
  simp [xrange]

/-- A lower bound admits everything above what it admits. -/
theorem RangeStart.admits_of_le {min : RangeStart} {a b : StreamId}
    (ha : min.admits a = true) (hab : a ≤ b) : min.admits b = true := by
  cases min with
  | inclusive ms =>
      simp only [RangeStart.admits, decide_eq_true_eq] at ha ⊢
      exact ha.trans (StreamId.ms_le_of_le hab)
  | exclusive c =>
      simp only [RangeStart.admits, decide_eq_true_eq] at ha ⊢
      rw [StreamId.lt_def] at *
      rw [StreamId.le_def] at hab
      omega

/-- After its first entry, the rest of a range is the range after that entry. -/
theorem xrange_after_head {stream : List RedisEntry} {min : RangeStart} {max : Nat}
    {e : RedisEntry} {es : List RedisEntry} (hsorted : RedisSorted stream)
    (h : xrange stream min max = e :: es) : xrange stream (.exclusive e.id) max = es := by
  have he : min.admits e.id = true :=
    (mem_xrange.mp (h ▸ List.mem_cons_self ..)).2.1
  refine filter_after_head hsorted h ?_ ?_ ?_
  · simp [RangeStart.admits, StreamId.lt_irrefl]
  · intro x hx
    rw [RangeStart.admits_of_le he (StreamId.le_of_lt hx)]
    simp [RangeStart.admits, hx]
  · intro x hx
    have hnot : ¬ e.id < x.id := fun h' => StreamId.lt_irrefl _ (StreamId.lt_trans hx h')
    simp [RangeStart.admits, hnot]

/-- The first entry of a range is its least. -/
theorem le_of_xrange_eq_cons {stream : List RedisEntry} {min : RangeStart} {max : Nat}
    {e e' : RedisEntry} {es : List RedisEntry} (hsorted : RedisSorted stream)
    (h : xrange stream min max = e :: es) (he' : e' ∈ xrange stream min max) : e.id ≤ e'.id := by
  have hp : (xrange stream min max).Pairwise fun a b => a.id < b.id :=
    hsorted.sublist List.filter_sublist
  rw [h] at hp he'
  rcases List.mem_cons.mp he' with rfl | hmem
  · exact StreamId.le_refl _
  · exact StreamId.le_of_lt ((List.pairwise_cons.mp hp).1 _ hmem)

/-- `RedisReplaySource.count_events`. -/
def redis_count_events (stream : List RedisEntry) (w : Window) : Nat :=
  (xrange stream (.inclusive w.start_ms) w.end_ms).length

/-! ## `RedisReplaySource.stream_events` -/

/-- `batch_size`. -/
def batch_size : Nat := 100

/-- The local variables of `RedisReplaySource.stream_events`. -/
structure RedisStream where
  /-- `cursor`; `none` stands for `str(start_ms)`. -/
  cursor : Option StreamId
  /-- The truth value of `checkpoint`. -/
  resumed : Bool
  /-- What is left of `events`, with `len(events)`; `none` before the next `XRANGE`. -/
  batch : Option (List RedisEntry × Nat)
  /-- How many entries the stream had at the last `XRANGE`. The program does not keep
  this; the results about the end of a stream speak of it. -/
  seen : Nat

/-- The state in which the generator starts. A checkpoint that is not a stream id is sent
to Redis all the same, which answers with an error. -/
def RedisStream.open : Option Checkpoint → Except StreamError RedisStream
  | none => .ok { cursor := none, resumed := false, batch := none, seen := 0 }
  | some (.id (.redis c)) => .ok { cursor := some c, resumed := true, batch := none, seen := 0 }
  | some _ => .error .responseError

/-- The lower bound of the entries still to come: strictly after the cursor, or from
`start_ms` while there is none. -/
def RedisStream.bound (w : Window) (st : RedisStream) : RangeStart :=
  match st.cursor with
  | some c => .exclusive c
  | none => .inclusive w.start_ms

/-- The `min` argument of the next `XRANGE`: `f"({cursor}" if checkpoint else cursor`.
A cursor that is an id is only sent once `checkpoint` is set. -/
def RedisStream.min (w : Window) (st : RedisStream) : RangeStart :=
  match st.resumed, st.cursor with
  | true, some c => .exclusive c
  | _, _ => .inclusive w.start_ms

/-- One step of the generator over the current stream. -/
def RedisStream.step (w : Window) (stream : List RedisEntry) (st : RedisStream) :
    StreamStep RedisStream :=
  match st.batch with
  | none =>
      let events := (xrange stream (st.min w) w.end_ms).take batch_size
      if events.isEmpty then
        .done { st with seen := stream.length }
      else
        .more { st with batch := some (events, events.length), seen := stream.length }
  | some (e :: es, n) =>
      .yield ⟨.redis e.id, e.record⟩ { st with cursor := some e.id, batch := some (es, n) }
  | some ([], n) =>
      if n < batch_size then
        .done { st with batch := none }
      else
        .more { st with resumed := true, batch := none }

namespace RedisStream

variable {w : Window} {stream : List RedisEntry} {st st' : RedisStream}

/-- The next page: at most `batch_size` entries from the lower bound on. -/
def page (w : Window) (stream : List RedisEntry) (st : RedisStream) : List RedisEntry :=
  (xrange stream (st.min w) w.end_ms).take batch_size

/-- What a step of the generator can be. -/
inductive Took (w : Window) (stream : List RedisEntry) (st : RedisStream) :
    StreamStep RedisStream → Prop
  | empty (hb : st.batch = none) (hpage : xrange stream (st.min w) w.end_ms = []) :
      Took w stream st (.done { st with seen := stream.length })
  | fetched (hb : st.batch = none) (hpage : st.page w stream ≠ []) :
      Took w stream st (.more
        { st with
          batch := some (st.page w stream, (st.page w stream).length),
          seen := stream.length })
  | yielded (e : RedisEntry) (es : List RedisEntry) (n : Nat) (hb : st.batch = some (e :: es, n)) :
      Took w stream st (.yield ⟨.redis e.id, e.record⟩
        { st with cursor := some e.id, batch := some (es, n) })
  | short (n : Nat) (hb : st.batch = some ([], n)) (hn : n < batch_size) :
      Took w stream st (.done { st with batch := none })
  | full (n : Nat) (hb : st.batch = some ([], n)) (hn : ¬ n < batch_size) :
      Took w stream st (.more { st with resumed := true, batch := none })

theorem step_took (w : Window) (stream : List RedisEntry) (st : RedisStream) :
    Took w stream st (st.step w stream) := by
  unfold RedisStream.step
  split
  · rename_i hb
    dsimp only
    split
    · rename_i hempty
      rw [List.isEmpty_iff, List.take_eq_nil_iff] at hempty
      exact .empty hb (hempty.resolve_left (by decide))
    · rename_i hne
      exact .fetched hb (by simpa [page] using hne)
  · rename_i e es n hb
    exact .yielded e es n hb
  · rename_i n hb
    split
    · rename_i hn
      exact .short n hb hn
    · rename_i hn
      exact .full n hb hn

/-! ## What the generator has passed -/

/-- The ids at or below the cursor. -/
def Passed (st : RedisStream) (id : StreamId) : Prop := ∃ c, st.cursor = some c ∧ id ≤ c

/-- The invariant of the generator's loop. Before an `XRANGE` the flag and the cursor
agree. Inside a batch, what is left of it is the beginning of the outstanding entries, and
all of the outstanding entries the call saw if the batch came back short. -/
structure Inv (w : Window) (stream : List RedisEntry) (st : RedisStream) : Prop where
  seen_le : st.seen ≤ stream.length
  between : st.batch = none → st.min w = st.bound w
  batch_prefix : ∀ es n, st.batch = some (es, n) → es <+: xrange stream (st.bound w) w.end_ms
  batch_short : ∀ es n, st.batch = some (es, n) → n < batch_size →
    es = xrange (stream.take st.seen) (st.bound w) w.end_ms
  cursor_of_batch : ∀ n, st.batch = some ([], n) → ∃ c, st.cursor = some c

/-- An id is outstanding or passed, if it lies in the window. -/
theorem bound_admits_iff {id : StreamId} (hid : w.start_ms ≤ id.ms) :
    (st.bound w).admits id = true ↔ ¬ st.Passed id := by
  unfold bound Passed
  cases hc : st.cursor with
  | none => simp [RangeStart.admits, hid]
  | some c =>
      simp only [RangeStart.admits, decide_eq_true_eq, Option.some.injEq, exists_eq_left']
      exact StreamId.not_le.symm

/-- A generator opens with no checkpoint or with a stream id. -/
theorem open_cases {cp : Option Checkpoint} (h : RedisStream.open cp = .ok st) :
    (cp = none ∧ st = { cursor := none, resumed := false, batch := none, seen := 0 }) ∨
      ∃ c, cp = some (.id (.redis c)) ∧
        st = { cursor := some c, resumed := true, batch := none, seen := 0 } := by
  unfold RedisStream.open at h
  split at h
  · cases h
    exact Or.inl ⟨rfl, rfl⟩
  · rename_i c
    cases h
    exact Or.inr ⟨c, rfl, rfl⟩
  · cases h

/-- A freshly opened generator satisfies the invariant. -/
theorem open_inv {cp : Option Checkpoint} (h : RedisStream.open cp = .ok st) :
    Inv w stream st := by
  have hst : st.batch = none ∧ st.seen = 0 ∧ st.min w = st.bound w := by
    obtain ⟨-, rfl⟩ | ⟨c, -, rfl⟩ := open_cases h
    · exact ⟨rfl, rfl, rfl⟩
    · exact ⟨rfl, rfl, rfl⟩
  obtain ⟨hb, hs, hm⟩ := hst
  refine ⟨by omega, fun _ => hm, ?_, ?_, ?_⟩
  · intro es n h'; rw [hb] at h'; cases h'
  · intro es n h'; rw [hb] at h'; cases h'
  · intro n h'; rw [hb] at h'; cases h'

/-- The invariant survives appends to the stream. -/
theorem Inv.append {es : List RedisEntry} (h : Inv w stream st) : Inv w (stream ++ es) st := by
  refine ⟨?_, h.between, ?_, ?_, h.cursor_of_batch⟩
  · rw [List.length_append]
    exact Nat.le_add_right_of_le h.seen_le
  · intro l n hl
    exact filter_prefix_append (h.batch_prefix l n hl)
  · intro l n hl hn
    rw [List.take_append_of_le_length h.seen_le]
    exact h.batch_short l n hl hn

/-! ## The spec lemmas -/

private theorem fetch_inv (h : Inv w stream st) (hb : st.batch = none)
    (hpage : st.page w stream ≠ []) :
    Inv w stream
      { st with
        batch := some (st.page w stream, (st.page w stream).length),
        seen := stream.length } := by
  unfold page at hpage ⊢
  rw [h.between hb] at hpage ⊢
  refine ⟨Nat.le_refl _, ?_, ?_, ?_, ?_⟩
  · intro h'; cases h'
  · rintro es n ⟨⟩
    exact List.take_prefix _ _
  · rintro es n ⟨⟩ hn
    -- a short batch is the whole range
    rw [List.length_take] at hn
    dsimp only
    rw [List.take_of_length_le (by omega), List.take_length]
    rfl
  · intro n h'
    simp only [Option.some.injEq, Prod.mk.injEq] at h'
    exact absurd h'.1 hpage

/-- A step that neither yields nor returns keeps the invariant and moves no cursor. -/
theorem step_more (h : Inv w stream st) (hs : st.step w stream = .more st') :
    Inv w stream st' ∧ st'.cursor = st.cursor := by
  have htook := step_took w stream st
  rw [hs] at htook
  cases htook with
  | fetched hb hpage => exact ⟨fetch_inv h hb hpage, rfl⟩
  | full n hb hn =>
      obtain ⟨c, hc⟩ := h.cursor_of_batch n hb
      refine ⟨⟨h.seen_le, ?_, ?_, ?_, ?_⟩, rfl⟩
      · intro _
        simp only [RedisStream.min, bound, hc]
      · intro es m h'; cases h'
      · intro es m h'; cases h'
      · intro m h'; cases h'

/-- **`yield`.** The event is the first entry beyond the cursor, and the cursor moves to
it. -/
theorem step_yield {ev : ReplayEvent} (hsorted : RedisSorted stream) (h : Inv w stream st)
    (hs : st.step w stream = .yield ev st') :
    Inv w stream st' ∧ ∃ e ∈ xrange stream (st.bound w) w.end_ms,
      ev = ⟨.redis e.id, e.record⟩ ∧ st'.cursor = some e.id ∧
      ∀ e' ∈ xrange stream (st.bound w) w.end_ms, e.id ≤ e'.id := by
  have htook := step_took w stream st
  rw [hs] at htook
  cases htook with
  | yielded e es n hb =>
      obtain ⟨tl, htl⟩ := h.batch_prefix (e :: es) n hb
      rw [List.cons_append] at htl
      have hmem : e ∈ xrange stream (st.bound w) w.end_ms := by
        rw [← htl]; exact List.mem_cons_self ..
      refine ⟨⟨h.seen_le, ?_, ?_, ?_, ?_⟩, e, hmem, rfl, rfl,
        fun e' he' => le_of_xrange_eq_cons hsorted htl.symm he'⟩
      · intro h'; cases h'
      · rintro es' n' ⟨⟩
        exact ⟨tl, (xrange_after_head hsorted htl.symm).symm⟩
      · rintro es' n' ⟨⟩ hn
        have hshort := h.batch_short (e :: es) n hb hn
        exact (xrange_after_head (hsorted.sublist (List.take_sublist ..)) hshort.symm).symm
      · rintro n' ⟨⟩
        exact ⟨e.id, rfl⟩

/-- **Return.** Nothing that the last `XRANGE` could see is left beyond the cursor. -/
theorem step_done (h : Inv w stream st) (hs : st.step w stream = .done st') :
    st'.cursor = st.cursor ∧ st'.seen ≤ stream.length ∧
      xrange (stream.take st'.seen) (st.bound w) w.end_ms = [] := by
  have htook := step_took w stream st
  rw [hs] at htook
  cases htook with
  | empty hb hpage =>
      refine ⟨rfl, Nat.le_refl _, ?_⟩
      dsimp only
      rw [List.take_length, ← h.between hb]
      exact hpage
  | short n hb hn => exact ⟨rfl, h.seen_le, (h.batch_short [] n hb hn).symm⟩

/-- With its event everything up to it is passed, and it is the only entry of the window
that is newly passed: an outstanding entry is not below the least one. -/
theorem passed_step_yield (hsorted : RedisSorted stream) (h : Inv w stream st)
    {ev : ReplayEvent} (hs : st.step w stream = .yield ev st') :
    Inv w stream st' ∧ ∃ e ∈ stream, ev = ⟨.redis e.id, e.record⟩ ∧ st'.cursor = some e.id ∧
      ¬ st.Passed e.id ∧ (∀ id, st'.Passed id ↔ id ≤ e.id) ∧
      ∀ e' ∈ stream, w.contains e'.id.ms →
        (st'.Passed e'.id ↔ st.Passed e'.id ∨ e'.id = e.id) := by
  obtain ⟨hinv, e, he, hev, hcursor, hleast⟩ := step_yield hsorted h hs
  obtain ⟨hmem, hadmits, -⟩ := mem_xrange.mp he
  have hpassed : ∀ id, st'.Passed id ↔ id ≤ e.id := by
    intro id
    simp only [Passed, hcursor, Option.some.injEq, exists_eq_left']
  have hbelow : ∀ id, st.Passed id → id < e.id := by
    rintro id ⟨c, hc, hle⟩
    simp only [bound, hc, RangeStart.admits, decide_eq_true_eq] at hadmits
    exact StreamId.lt_of_le_of_lt hle hadmits
  refine ⟨hinv, e, hmem, hev, hcursor, ?_, hpassed, fun e' he' hwin => ?_⟩
  · exact fun hp => StreamId.not_le.mpr (hbelow _ hp) (StreamId.le_refl _)
  · rw [hpassed]
    constructor
    · intro hle
      -- an entry of the window that is not passed is outstanding, so not below the event
      by_cases hp : st.Passed e'.id
      · exact Or.inl hp
      · have hadm := (bound_admits_iff hwin.1).mpr hp
        have hge := hleast e' (mem_xrange.mpr ⟨he', hadm, hwin.2⟩)
        exact Or.inr (StreamId.eq_of_le_of_le hle hge)
    · rintro (hp | heq)
      · exact StreamId.le_of_lt (hbelow _ hp)
      · rw [heq]
        exact StreamId.le_refl _

end RedisStream

end WalStream.Source

/-
What `RedisReplaySource.stream_events` yields, over a whole run of the generator.

The generator reads the stream page by page. Between two of its steps entries may be added
at the tail, and the oldest entries may go: `XADD` is called with a `MAXLEN`. The state of
a run keeps every entry that was ever added, and how many of the oldest were trimmed, so
that the results can speak of entries the stream has lost.

A run that never asks for a page with an entry of it trimmed yields the entries in range of
what it saw, once each and in order; any other run lacks one of them.
-/
import WalStream.Source.Redis
import WalStream.Lib.Run

set_option autoImplicit false

namespace WalStream.Source.RedisWindow

open Lib

/-! ## Runs of the generator

The generator is interleaved with whoever writes to the stream. A run keeps the whole history
and how much of it is trimmed, so that what has been lost can still be spoken of, and the events
yielded so far. -/

/-- A run of `stream_events` at one moment. -/
structure State where
  /-- Every entry that was ever added. -/
  history : List RedisEntry
  /-- How many of the oldest were trimmed. -/
  trimmed : Nat
  source : RedisStream
  /-- The events yielded so far, in order. -/
  yielded : List ReplayEvent
  /-- The history at the last `XRANGE`. -/
  seen : List RedisEntry
  /-- The `XRANGE` calls so far. -/
  calls : Nat
  /-- The steps of the generator so far. -/
  pulls : Nat
  /-- Whether the generator has returned. -/
  returned : Bool

/-- The stream as Redis holds it. -/
def State.stream (s : State) : List RedisEntry := s.history.drop s.trimmed

/-- A run at its start. -/
def State.initial (history : List RedisEntry) (trimmed : Nat) (source : RedisStream) : State :=
  { history := history, trimmed := trimmed, source := source, yielded := [], seen := [],
    calls := 0, pulls := 0, returned := false }

/-- The generator takes a step; an entry is added; the oldest entries are trimmed. -/
inductive Action
  | pull
  | xadd (e : RedisEntry)
  | trim (n : Nat)

/-- The generator takes a step, with an `XRANGE` if it has no page. -/
def State.pulled (s : State) : State :=
  match s.source.batch with
  | none => { s with seen := s.history, calls := s.calls + 1, pulls := s.pulls + 1 }
  | some _ => { s with pulls := s.pulls + 1 }

/-- What a step of the generator makes of the run. -/
def State.outcome (s : State) : StreamStep RedisStream → Option State
  | .more st => some { s with source := st }
  | .yield ev st => some { s with source := st, yielded := s.yielded ++ [ev] }
  | .done st => some { s with source := st, returned := true }
  | .raise _ => none

/-- One step of the run. Redis only hands out increasing ids. -/
def step (w : Window) (s : State) : Action → Option State
  | .pull => if s.returned then none else s.pulled.outcome (s.source.step w s.stream)
  | .xadd e =>
      if ∀ e' ∈ s.history, e'.id < e.id then some { s with history := s.history ++ [e] } else none
  | .trim n => some { s with trimmed := s.trimmed + n }

/-- The generator asks for no page that an entry was trimmed from. -/
def NoneLost (w : Window) (s : State) : Action → Prop
  | .pull => s.source.batch = none → ∀ e ∈ s.history.take s.trimmed,
      ¬ ((s.source.bound w).admits e.id = true ∧ e.id.ms ≤ w.end_ms)
  | _ => True

instance (w : Window) (s : State) : DecidablePred (NoneLost w s)
  | .pull => inferInstanceAs (Decidable (s.source.batch = none → ∀ e ∈ s.history.take s.trimmed,
      ¬ ((s.source.bound w).admits e.id = true ∧ e.id.ms ≤ w.end_ms)))
  | .xadd _ | .trim _ => isTrue trivial

/-- Nothing is trimmed. -/
def Untrimmed (_ : State) : Action → Prop
  | .trim _ => False
  | _ => True

instance (s : State) : DecidablePred (Untrimmed s)
  | .trim _ => isFalse id
  | .pull | .xadd _ => isTrue trivial

/-! ## Ranges of a growing history

An `XRANGE` sees the stream at one moment. These lemmas take the range of a history apart into
what an earlier moment saw and what has been added, and ids that increase decide the second. -/

/-- The event of an entry. -/
def event (e : RedisEntry) : ReplayEvent := ⟨.redis e.id, e.record⟩

/-- Events are told apart by their ids, so what is known of the entries yielded is known of the
events. -/
theorem event_injective : Function.Injective event := by
  intro e e' h
  obtain ⟨id, record⟩ := e
  obtain ⟨id', record'⟩ := e'
  cases h
  rfl

/-- The range of a longer stream is that of its parts. Old entries and new ones are treated
separately below, because only the new ones can be admitted by every bound. -/
theorem xrange_append (l₁ l₂ : List RedisEntry) (min : RangeStart) (max : Nat) :
    xrange (l₁ ++ l₂) min max = xrange l₁ min max ++ xrange l₂ min max :=
  List.filter_append ..

/-- Two bounds that an earlier entry is not beyond admit the same of what was added later. -/
theorem xrange_later {more : List RedisEntry} {min min' : RangeStart} {max : Nat}
    (h : ∀ x ∈ more, min.admits x.id = true ∧ min'.admits x.id = true) :
    xrange more min max = xrange more min' max := by
  refine List.filter_congr fun x hx => ?_
  rw [(h x hx).1, (h x hx).2]

/-- If nothing of a range was trimmed, the stream still holds all of it. -/
theorem xrange_drop {history : List RedisEntry} {k max : Nat} {min : RangeStart}
    (h : ∀ e ∈ history.take k, ¬ (min.admits e.id = true ∧ e.id.ms ≤ max)) :
    xrange (history.drop k) min max = xrange history min max := by
  have hnone : xrange (history.take k) min max = [] := by
    rw [xrange, List.filter_eq_nil_iff]
    intro e he
    rw [Bool.and_eq_true, decide_eq_true_eq]
    exact h e he
  conv_rhs => rw [← List.take_append_drop k history, xrange_append, hnone, List.nil_append]

/-! ## The invariant

`Base` holds in every run and says that nothing is yielded twice, out of order or out of range.
`Paging` adds that nothing is missing, which holds as long as no page was asked for that an
entry had been trimmed from. -/

section

variable {w : Window} {lo : RangeStart} {s t : State} {a : Action}

/-- The invariant of every run: the entries yielded, and those on the page behind them, are
in range of what was seen and in order. -/
structure Base (w : Window) (lo : RangeStart) (s : State) : Prop where
  sorted : RedisSorted s.history
  seen_prefix : s.seen <+: s.history
  between : s.returned = false → s.source.batch = none →
    s.source.min w = s.source.bound w
  cursor_of_page : ∀ n, s.source.batch = some ([], n) → ∃ c, s.source.cursor = some c
  narrower : ∀ id, (s.source.bound w).admits id = true → lo.admits id = true
  drawn : ∃ done, s.yielded = done.map event ∧ RedisSorted done ∧
    ∀ e ∈ done, e ∈ xrange s.seen lo w.end_ms ∧ (s.source.bound w).admits e.id = false
  page_drawn : ∀ es n, s.source.batch = some (es, n) → RedisSorted es ∧
    ∀ e ∈ es, e ∈ xrange s.seen lo w.end_ms ∧ (s.source.bound w).admits e.id = true

/-- The invariant of a run that has lost nothing: of the entries in range of what was seen,
the first were yielded and the others are outstanding, the page being the beginning of
these, or all of them if it came back short. -/
structure Paging (w : Window) (lo : RangeStart) (s : State) : Prop where
  base : Base w lo s
  yielded : ∃ done, s.yielded = done.map event ∧
    xrange s.seen lo w.end_ms = done ++ xrange s.seen (s.source.bound w) w.end_ms
  cursor : s.source.bound w = lo ∨
    ∃ e ∈ s.seen, s.source.bound w = .exclusive e.id ∧ lo.admits e.id = true
  page : ∀ es n, s.source.batch = some (es, n) →
    es <+: xrange s.seen (s.source.bound w) w.end_ms ∧
    (n < batch_size → es = xrange s.seen (s.source.bound w) w.end_ms)
  returned : s.returned = true → xrange s.seen (s.source.bound w) w.end_ms = []

/-- A generator that has just been opened has yielded nothing, and everything from its bound on
is outstanding. -/
theorem Paging.initial {history : List RedisEntry} {trimmed : Nat} {st : RedisStream}
    {cp : Option Checkpoint} (hopen : RedisStream.open cp = .ok st) (hsorted : RedisSorted history) :
    Paging w (st.bound w) (State.initial history trimmed st) := by
  have hst : st.batch = none ∧ st.min w = st.bound w := by
    obtain ⟨-, rfl⟩ | ⟨c, -, rfl⟩ := RedisStream.open_cases hopen
    · exact ⟨rfl, rfl⟩
    · exact ⟨rfl, rfl⟩
  obtain ⟨hb, hm⟩ := hst
  have hnopage : ∀ page, (State.initial history trimmed st).source.batch ≠ some page := by
    intro page h
    rw [State.initial, hb] at h
    cases h
  have hbase : Base w (st.bound w) (State.initial history trimmed st) :=
    { sorted := hsorted,
      seen_prefix := List.nil_prefix,
      between := fun _ _ => hm,
      cursor_of_page := fun _ h => absurd h (hnopage _),
      narrower := fun _ h => h,
      drawn := ⟨[], rfl, List.Pairwise.nil, fun _ h => by (cases h)⟩,
      page_drawn := fun _ _ h => absurd h (hnopage _) }
  refine ⟨hbase, ⟨[], rfl, rfl⟩, Or.inl rfl, fun _ _ h => absurd h (hnopage _), ?_⟩
  intro h
  cases h

/-- An entry that was added after the cursor's is admitted by every bound. Redis hands out
increasing ids, which is where this comes from. -/
theorem Paging.admits_later (h : Paging w lo s) {e x : RedisEntry} (he : e ∈ s.seen)
    (hbound : s.source.bound w = .exclusive e.id) (hlo : lo.admits e.id = true)
    {more : List RedisEntry} (hmore : s.seen ++ more = s.history) (hx : x ∈ more) :
    lo.admits x.id = true ∧ (s.source.bound w).admits x.id = true := by
  have hsorted := h.base.sorted
  rw [← hmore] at hsorted
  have hlt : e.id < x.id := (List.pairwise_append.mp hsorted).2.2 e he x hx
  refine ⟨RangeStart.admits_of_le hlo (StreamId.le_of_lt hlt), ?_⟩
  rw [hbound]
  exact decide_eq_true hlt

/-- What was yielded and what is outstanding, once the whole history is seen. -/
theorem Paging.see (h : Paging w lo s) : ∃ done, s.yielded = done.map event ∧
    xrange s.history lo w.end_ms = done ++ xrange s.history (s.source.bound w) w.end_ms := by
  obtain ⟨done, hyielded, hsplit⟩ := h.yielded
  obtain ⟨more, hmore⟩ := h.base.seen_prefix
  have hlater : xrange more lo w.end_ms = xrange more (s.source.bound w) w.end_ms := by
    rcases h.cursor with hbound | ⟨e, he, hbound, hlo⟩
    · rw [hbound]
    · exact xrange_later fun x hx => h.admits_later he hbound hlo hmore hx
  refine ⟨done, hyielded, ?_⟩
  rw [← hmore, xrange_append, xrange_append, hsplit, hlater, List.append_assoc]

/-! ### One step of the generator -/

/-- **What a pull can be**, with the state after it. -/
inductive Pulled (w : Window) (s : State) : State → Prop
  | empty (hb : s.source.batch = none)
      (hpage : xrange s.stream (s.source.min w) w.end_ms = []) :
      Pulled w s { s with
        seen := s.history, calls := s.calls + 1, pulls := s.pulls + 1, returned := true,
        source := { s.source with seen := s.stream.length } }
  | fetched (hb : s.source.batch = none) (hpage : s.source.page w s.stream ≠ []) :
      Pulled w s { s with
        seen := s.history, calls := s.calls + 1, pulls := s.pulls + 1,
        source := { s.source with
          batch := some (s.source.page w s.stream, (s.source.page w s.stream).length),
          seen := s.stream.length } }
  | yielded (e : RedisEntry) (es : List RedisEntry) (n : Nat)
      (hb : s.source.batch = some (e :: es, n)) :
      Pulled w s { s with
        pulls := s.pulls + 1, yielded := s.yielded ++ [event e],
        source := { s.source with cursor := some e.id, batch := some (es, n) } }
  | short (n : Nat) (hb : s.source.batch = some ([], n)) (hn : n < batch_size) :
      Pulled w s { s with
        pulls := s.pulls + 1, returned := true, source := { s.source with batch := none } }
  | full (n : Nat) (hb : s.source.batch = some ([], n)) (hn : ¬ n < batch_size) :
      Pulled w s { s with
        pulls := s.pulls + 1, source := { s.source with resumed := true, batch := none } }

/-- Without a page the generator asks for one, and sees the stream as it is at that moment. -/
theorem pulled_none (hb : s.source.batch = none) :
    s.pulled = { s with seen := s.history, calls := s.calls + 1, pulls := s.pulls + 1 } := by
  simp only [State.pulled, hb]

/-- With a page it asks nobody, and what was added in between is not seen. -/
theorem pulled_some {b : List RedisEntry × Nat} (hb : s.source.batch = some b) :
    s.pulled = { s with pulls := s.pulls + 1 } := by
  simp only [State.pulled, hb]

/-- **The inversion of a pull.** Whatever the generator does is one of the four things `Pulled`
lists. -/
theorem pull_cases (hs : step w s .pull = some t) : s.returned = false ∧ Pulled w s t := by
  simp only [step] at hs
  split at hs
  · cases hs
  · rename_i hret
    refine ⟨by simpa using hret, ?_⟩
    have htook := RedisStream.step_took w s.stream s.source
    generalize s.source.step w s.stream = r at htook hs
    cases htook with
    | empty hb hpage =>
        rw [pulled_none hb] at hs
        cases hs
        exact .empty hb hpage
    | fetched hb hpage =>
        rw [pulled_none hb] at hs
        cases hs
        exact .fetched hb hpage
    | yielded e es n hb =>
        rw [pulled_some hb] at hs
        cases hs
        exact .yielded e es n hb
    | short n hb hn =>
        rw [pulled_some hb] at hs
        cases hs
        exact .short n hb hn
    | full n hb hn =>
        rw [pulled_some hb] at hs
        cases hs
        exact .full n hb hn

/-- The generator can always go on until it has returned. -/
theorem pull_enabled (hret : s.returned = false) : ∃ t, step w s .pull = some t := by
  have htook := RedisStream.step_took w s.stream s.source
  simp only [step, hret, Bool.false_eq_true, if_false]
  generalize s.source.step w s.stream = r at htook
  cases htook with
  | _ => exact ⟨_, rfl⟩

/-- An entry below a bound comes before one above it. -/
theorem lt_of_admits {min : RangeStart} {a b : StreamId} (ha : min.admits a = false)
    (hb : min.admits b = true) : a < b := by
  rw [← StreamId.not_le]
  intro hle
  rw [RangeStart.admits_of_le hb hle] at ha
  cases ha

/-- In range of what was seen is in range of the whole history. -/
theorem Base.mem_history (h : Base w lo s) {e : RedisEntry} (he : e ∈ xrange s.seen lo w.end_ms) :
    e ∈ xrange s.history lo w.end_ms :=
  mem_xrange.mpr ⟨h.seen_prefix.subset (mem_xrange.mp he).1, (mem_xrange.mp he).2⟩

/-- What was yielded is in range of the whole history, in order, and behind the cursor: nothing
of it can be yielded again. -/
theorem Base.drawn_see (h : Base w lo s) : ∃ done, s.yielded = done.map event ∧
    RedisSorted done ∧ ∀ e ∈ done, e ∈ xrange s.history lo w.end_ms ∧
      (s.source.bound w).admits e.id = false := by
  obtain ⟨done, hyielded, hsorted, hdone⟩ := h.drawn
  exact ⟨done, hyielded, hsorted, fun e he => ⟨h.mem_history (hdone e he).1, (hdone e he).2⟩⟩

/-- **One pull** keeps the invariant, page by page: a fetched page lies in range and behind what
was yielded, and an event taken off it comes next in the order. -/
theorem Base.pull (h : Base w lo s) (hs : step w s .pull = some t) : Base w lo t := by
  obtain ⟨hret, hpulled⟩ := pull_cases hs
  cases hpulled with
  -- the last page: nothing is yielded, and the generator returns
  | empty hb hpage =>
      refine ⟨h.sorted, List.prefix_refl _, fun _ => h.between hret, h.cursor_of_page, h.narrower,
        h.drawn_see, ?_⟩
      intro es n hes
      rw [hb] at hes
      cases hes
  -- what is on the page was admitted by the bound, which is behind all that was yielded
  | fetched hb hpage =>
      refine ⟨h.sorted, List.prefix_refl _, ?_, ?_, h.narrower, h.drawn_see, ?_⟩
      · intro _ hnone
        cases hnone
      · intro n hes
        simp only [Option.some.injEq, Prod.mk.injEq] at hes
        exact absurd hes.1 hpage
      · rintro es n ⟨⟩
        have hsorted : RedisSorted s.stream := h.sorted.sublist (List.drop_sublist ..)
        refine ⟨(hsorted.sublist List.filter_sublist).sublist (List.take_sublist ..), ?_⟩
        intro e he
        obtain ⟨hmem, hadmits, hms⟩ := mem_xrange.mp (List.mem_of_mem_take he)
        rw [h.between hret hb] at hadmits
        exact ⟨mem_xrange.mpr ⟨List.mem_of_mem_drop hmem, h.narrower _ hadmits, hms⟩, hadmits⟩
  | yielded e es n hb =>
      obtain ⟨hsorted, hpage⟩ := h.page_drawn _ n hb
      rw [RedisSorted, List.pairwise_cons] at hsorted
      obtain ⟨done, hyielded, hdsorted, hdone⟩ := h.drawn
      obtain ⟨hrange, hadmits⟩ := hpage e (List.mem_cons_self ..)
      -- the cursor moves to the entry, and the bound with it
      have hbelow : ∀ d ∈ done, d.id < e.id := fun d hd => lt_of_admits (hdone d hd).2 hadmits
      refine ⟨h.sorted, h.seen_prefix, ?_, fun n' _ => ⟨e.id, rfl⟩, ?_, ⟨done ++ [e], ?_, ?_, ?_⟩,
        ?_⟩
      · intro _ hnone
        cases hnone
      · intro id hid
        exact RangeStart.admits_of_le (mem_xrange.mp hrange).2.1
          (StreamId.le_of_lt (of_decide_eq_true hid))
      · rw [List.map_append, ← hyielded]
        rfl
      · refine List.pairwise_append.mpr ⟨hdsorted, List.pairwise_singleton .., ?_⟩
        intro d hd x hx
        rw [List.mem_singleton.mp hx]
        exact hbelow d hd
      · intro d hd
        rcases List.mem_append.mp hd with hd | hd
        · exact ⟨(hdone d hd).1, decide_eq_false fun hlt =>
            StreamId.lt_irrefl _ (StreamId.lt_trans hlt (hbelow d hd))⟩
        · rw [List.mem_singleton.mp hd]
          exact ⟨hrange, decide_eq_false (StreamId.lt_irrefl _)⟩
      · rintro es' n' ⟨⟩
        exact ⟨hsorted.2, fun x hx => ⟨(hpage x (List.mem_cons_of_mem _ hx)).1,
          decide_eq_true (hsorted.1 x hx)⟩⟩
  | short n hb hn =>
      refine ⟨h.sorted, h.seen_prefix, ?_, ?_, h.narrower, h.drawn, ?_⟩
      · intro hret'
        cases hret'
      · intro m hes
        cases hes
      · intro es m hes
        cases hes
  -- a full page: the next call begins behind the cursor
  | full n hb hn =>
      obtain ⟨c, hc⟩ := h.cursor_of_page n hb
      refine ⟨h.sorted, h.seen_prefix, ?_, ?_, h.narrower, h.drawn, ?_⟩
      · intro _ _
        simp only [RedisStream.min, RedisStream.bound, hc]
      · intro m hes
        cases hes
      · intro es m hes
        cases hes

/-- The steps of the others add entries at the tail or take them from the front, and neither
touches what was yielded. -/
theorem Base.step (h : Base w lo s) (hs : step w s a = some t) : Base w lo t := by
  cases a with
  | pull => exact h.pull hs
  | xadd e =>
      simp only [RedisWindow.step, Option.ite_none_right_eq_some, Option.some.injEq] at hs
      obtain ⟨hnew, rfl⟩ := hs
      refine ⟨List.pairwise_append.mpr ⟨h.sorted, List.pairwise_singleton .., ?_⟩,
        h.seen_prefix.trans (List.prefix_append ..), h.between, h.cursor_of_page, h.narrower,
        h.drawn, h.page_drawn⟩
      rintro e' he' x hx
      rw [List.mem_singleton.mp hx]
      exact hnew e' he'
  | trim n =>
      cases hs
      exact ⟨h.sorted, h.seen_prefix, h.between, h.cursor_of_page, h.narrower, h.drawn,
        h.page_drawn⟩

/-- Once everything is seen, a page with nothing trimmed is the beginning of what is
outstanding. This is where the condition of a run is used. -/
theorem page_eq (h : Paging w lo s) (hret : s.returned = false) (hb : s.source.batch = none)
    (hkept : NoneLost w s .pull) :
    xrange s.stream (s.source.min w) w.end_ms = xrange s.history (s.source.bound w) w.end_ms := by
  rw [h.base.between hret hb, State.stream, xrange_drop (hkept hb)]

/-- **One pull** of a run that has lost nothing loses nothing, if nothing of the page it asks
for is trimmed. -/
theorem Paging.pull (h : Paging w lo s) (hkept : NoneLost w s .pull) (hs : step w s .pull = some t) :
    Paging w lo t := by
  have hbase := h.base.step hs
  obtain ⟨hret, hpulled⟩ := pull_cases hs
  have hcursor : s.source.bound w = lo ∨
      ∃ e ∈ s.history, s.source.bound w = .exclusive e.id ∧ lo.admits e.id = true := by
    rcases h.cursor with hbound | ⟨e, he, hbound, hlo⟩
    · exact Or.inl hbound
    · exact Or.inr ⟨e, h.base.seen_prefix.subset he, hbound, hlo⟩
  cases hpulled with
  | empty hb hpage =>
      rw [page_eq h hret hb hkept] at hpage
      refine ⟨hbase, h.see, hcursor, ?_, fun _ => hpage⟩
      intro es n hes
      rw [hb] at hes
      cases hes
  | fetched hb hpage =>
      have hpre : s.source.page w s.stream
          = (xrange s.history (s.source.bound w) w.end_ms).take batch_size := by
        rw [RedisStream.page, page_eq h hret hb hkept]
      refine ⟨hbase, h.see, hcursor, ?_, ?_⟩
      · rintro es n ⟨⟩
        refine ⟨hpre ▸ List.take_prefix .., fun hn => ?_⟩
        -- a short page is all there is
        rw [hpre, List.length_take] at hn
        rw [hpre]
        exact List.take_of_length_le (by omega)
      · intro hret'
        rw [hret] at hret'
        cases hret'
  | yielded e es n hb =>
      obtain ⟨hpre, hshort⟩ := h.page _ n hb
      obtain ⟨done, hyielded, hsplit⟩ := h.yielded
      obtain ⟨tl, htl⟩ := hpre
      rw [List.cons_append] at htl
      have hafter := xrange_after_head (h.base.sorted.sublist h.base.seen_prefix.sublist) htl.symm
      have hrange := ((h.base.page_drawn _ n hb).2 e (List.mem_cons_self ..)).1
      refine ⟨hbase, ⟨done ++ [e], ?_, ?_⟩,
        Or.inr ⟨e, (mem_xrange.mp hrange).1, rfl, (mem_xrange.mp hrange).2.1⟩, ?_, ?_⟩
      · rw [List.map_append, ← hyielded]
        rfl
      · rw [hsplit, ← htl, List.append_assoc]
        exact congrArg (done ++ e :: ·) hafter.symm
      · rintro es' n' ⟨⟩
        refine ⟨⟨tl, hafter.symm⟩, fun hn => ?_⟩
        have hall := hshort hn
        rw [← htl, List.cons.injEq] at hall
        exact hall.2.trans hafter.symm
      · intro hret'
        rw [hret] at hret'
        cases hret'
  | short n hb hn =>
      refine ⟨hbase, h.yielded, h.cursor, ?_, fun _ => ((h.page [] n hb).2 hn).symm⟩
      intro es m hes
      cases hes
  | full n hb hn =>
      refine ⟨hbase, h.yielded, h.cursor, ?_, ?_⟩
      · intro es m hes
        cases hes
      · intro hret'
        rw [hret] at hret'
        cases hret'

/-- Entries that are trimmed behind the generator are no loss, since it does not ask for them
any more. -/
theorem Paging.step (h : Paging w lo s) (hkept : NoneLost w s a) (hs : step w s a = some t) :
    Paging w lo t := by
  have hbase := h.base.step hs
  cases a with
  | pull => exact h.pull hkept hs
  | xadd e =>
      simp only [RedisWindow.step, Option.ite_none_right_eq_some, Option.some.injEq] at hs
      obtain ⟨-, rfl⟩ := hs
      exact ⟨hbase, h.yielded, h.cursor, h.page, h.returned⟩
  | trim n =>
      cases hs
      exact ⟨hbase, h.yielded, h.cursor, h.page, h.returned⟩

/-! ## What a run loses

The converse. A page with an entry of it trimmed loses that entry for good, as the cursor has
then passed its place; so the condition on pages is not merely enough. -/

/-- An entry in range of what was seen is gone and not yielded, nor on the page. -/
def Lost (w : Window) (lo : RangeStart) (s : State) : Prop :=
  ∃ e ∈ xrange s.seen lo w.end_ms, e ∈ s.history.take s.trimmed ∧ event e ∉ s.yielded ∧
    ∀ es n, s.source.batch = some (es, n) → e ∉ es

/-- An entry that was trimmed is not in the stream. -/
theorem Base.notMem_stream (h : Base w lo s) {e : RedisEntry} (he : e ∈ s.history.take s.trimmed) :
    e ∉ s.stream := by
  intro hmem
  have hsorted := h.sorted
  rw [← List.take_append_drop s.trimmed s.history] at hsorted
  exact StreamId.lt_irrefl _ ((List.pairwise_append.mp hsorted).2.2 e he e hmem)

/-- A page has only what the stream has. -/
theorem page_subset {st : RedisStream} {stream : List RedisEntry} {e : RedisEntry}
    (he : e ∈ st.page w stream) : e ∈ stream :=
  (mem_xrange.mp (List.mem_of_mem_take he)).1

/-- A loss is for good: the cursor does not go back, and a stream that has lost an entry never
has it again. -/
theorem Lost.step (hbase : Base w lo s) (h : Lost w lo s) (hs : step w s a = some t) : Lost w lo t := by
  obtain ⟨e, he, hgone, hnot, hpage⟩ := h
  have hrange := hbase.mem_history he
  cases a with
  | pull =>
      obtain ⟨-, hpulled⟩ := pull_cases hs
      cases hpulled with
      | empty hb => exact ⟨e, hrange, hgone, hnot, hpage⟩
      -- a page only has what is still in the stream
      | fetched hb =>
          refine ⟨e, hrange, hgone, hnot, ?_⟩
          rintro es n ⟨⟩ hmem
          exact hbase.notMem_stream hgone (page_subset hmem)
      -- what is yielded was on the page, and the lost entry was not
      | yielded e' es n hb =>
          have hother := hpage _ n hb
          refine ⟨e, he, hgone, ?_, ?_⟩
          · rw [List.mem_append, not_or]
            refine ⟨hnot, fun hmem => hother ?_⟩
            rw [event_injective (List.mem_singleton.mp hmem)]
            exact List.mem_cons_self ..
          · rintro es' n' ⟨⟩ hmem
            exact hother (List.mem_cons_of_mem _ hmem)
      | short n hb hn =>
          refine ⟨e, he, hgone, hnot, ?_⟩
          intro es m hes
          cases hes
      | full n hb hn =>
          refine ⟨e, he, hgone, hnot, ?_⟩
          intro es m hes
          cases hes
  | xadd e' =>
      simp only [RedisWindow.step, Option.ite_none_right_eq_some, Option.some.injEq] at hs
      obtain ⟨-, rfl⟩ := hs
      refine ⟨e, he, ?_, hnot, hpage⟩
      dsimp only
      rw [List.take_append]
      exact List.mem_append_left _ hgone
  | trim n =>
      cases hs
      exact ⟨e, he, (List.take_subset_take_left _ (Nat.le_add_right ..)) hgone, hnot, hpage⟩

/-- A pull that asks for a page with an entry of it trimmed loses that entry. -/
theorem Base.lost (h : Base w lo s) (hlost : ¬ NoneLost w s a)
    (hs : RedisWindow.step w s a = some t) : Lost w lo t := by
  cases a with
  | xadd e => exact absurd trivial hlost
  | trim n => exact absurd trivial hlost
  | pull =>
      simp only [NoneLost, Classical.not_imp, not_forall, not_not] at hlost
      -- the entry would have been on the page, and is behind the cursor's bound
      obtain ⟨hb, e, hgone, hadmits, hms⟩ := hlost
      have hrange : e ∈ xrange s.history lo w.end_ms :=
        mem_xrange.mpr ⟨List.mem_of_mem_take hgone, h.narrower _ hadmits, hms⟩
      have hnot : event e ∉ s.yielded := by
        obtain ⟨done, hyielded, -, hdone⟩ := h.drawn
        rw [hyielded, List.mem_map]
        rintro ⟨e', he', heq⟩
        rw [event_injective heq] at he'
        rw [(hdone e he').2] at hadmits
        cases hadmits
      obtain ⟨-, hpulled⟩ := pull_cases hs
      cases hpulled with
      | empty hb' =>
          refine ⟨e, hrange, hgone, hnot, ?_⟩
          intro es n hes
          rw [hb] at hes
          cases hes
      | fetched hb' =>
          refine ⟨e, hrange, hgone, hnot, ?_⟩
          rintro es n ⟨⟩ hmem'
          exact h.notMem_stream hgone (page_subset hmem')
      | yielded e' es n hb' => rw [hb] at hb'; cases hb'
      | short n hb' => rw [hb] at hb'; cases hb'
      | full n hb' => rw [hb] at hb'; cases hb'

/-- A run has lost nothing, or something for good. -/
theorem paging_or_lost {s₀ : State} {tr : List (State × Action)} (h0 : Paging w lo s₀)
    (hrun : Run (step w) s₀ tr s) :
    (StepsMeet (NoneLost w) tr ∧ Paging w lo s) ∨
    (¬ StepsMeet (NoneLost w) tr ∧ Base w lo s ∧ Lost w lo s) := by
  induction hrun with
  | nil => exact Or.inl ⟨stepsMeet_nil _, h0⟩
  | @cons tr s t a hr hs ih =>
      rw [stepsMeet_cons]
      rcases ih with ⟨htr, hpaging⟩ | ⟨htr, hbase, hlost⟩
      · by_cases hkept : NoneLost w s a
        · exact Or.inl ⟨⟨hkept, htr⟩, hpaging.step hkept hs⟩
        · exact Or.inr ⟨fun h => hkept h.1, hpaging.base.step hs, hpaging.base.lost hkept hs⟩
      · exact Or.inr ⟨fun h => htr h.2, hbase.step hs, hlost.step hbase hs⟩

/-- A run that has lost nothing has yielded the beginning of what is in range, and all of it
when it has returned. -/
theorem Paging.yielded_eq (h : Paging w lo s) :
    s.yielded <+: (xrange s.seen lo w.end_ms).map event ∧
    (s.returned = true → s.yielded = (xrange s.seen lo w.end_ms).map event) := by
  obtain ⟨done, hyielded, hsplit⟩ := h.yielded
  rw [hyielded, hsplit, List.map_append]
  refine ⟨List.prefix_append .., fun hret => ?_⟩
  rw [h.returned hret, List.map_nil, List.append_nil]

/-- **What is yielded** by a run that has returned: all that is in range of what it saw, or,
if it asked for a page with an entry of it trimmed, only some of it. -/
theorem yielded_or_missing {s₀ : State} {tr : List (State × Action)} (h0 : Paging w lo s₀)
    (hrun : Run (step w) s₀ tr s) (hret : s.returned = true) :
    (StepsMeet (NoneLost w) tr ∧ s.yielded = (xrange s.seen lo w.end_ms).map event) ∨
    (¬ StepsMeet (NoneLost w) tr ∧ ∃ done, s.yielded = done.map event ∧ RedisSorted done ∧
      done ⊆ xrange s.seen lo w.end_ms ∧ ∃ e ∈ xrange s.seen lo w.end_ms, e ∉ done) := by
  rcases paging_or_lost h0 hrun with ⟨htr, hpaging⟩ | ⟨htr, hbase, e, he, -, hnot, -⟩
  · exact Or.inl ⟨htr, hpaging.yielded_eq.2 hret⟩
  · obtain ⟨done, hyielded, hsorted, hdone⟩ := hbase.drawn
    refine Or.inr ⟨htr, done, hyielded, hsorted, fun d hd => (hdone d hd).1, e, he, fun hmem => ?_⟩
    exact hnot (hyielded ▸ List.mem_map_of_mem hmem)

/-! ## How long a run goes on

No bound on steps holds over a stream that grows faster than it is read, so steps and calls are
counted against the events there are in the end. -/

/-- Calls and steps counted along with the events: every page but the last is full, and a
page takes a step to fetch it, one for each entry and one to leave it. -/
structure Counted (s : State) : Prop where
  between : s.source.batch = none → s.returned = false →
    batch_size * s.calls = s.yielded.length ∧ s.pulls = 2 * s.calls + s.yielded.length
  inside : ∀ es n, s.source.batch = some (es, n) →
    s.returned = false ∧ 1 ≤ n ∧ n ≤ batch_size ∧
    batch_size * s.calls + n = batch_size + s.yielded.length + es.length ∧
    s.pulls + 1 = 2 * s.calls + s.yielded.length
  after : s.returned = true → batch_size * s.calls ≤ batch_size + s.yielded.length

/-- Nothing has been asked for and nothing yielded. -/
theorem Counted.initial {history : List RedisEntry} {trimmed : Nat} {st : RedisStream}
    {cp : Option Checkpoint} (hopen : RedisStream.open cp = .ok st) :
    Counted (State.initial history trimmed st) := by
  have hb : st.batch = none := by
    obtain ⟨-, rfl⟩ | ⟨c, -, rfl⟩ := RedisStream.open_cases hopen
    · rfl
    · rfl
  refine ⟨fun _ _ => ⟨rfl, rfl⟩, fun es n hes => ?_, fun hret => ?_⟩
  · rw [State.initial, hb] at hes
    cases hes
  · cases hret

/-- Every pull is counted where it gets something done. A page that is not full is the last one,
as `COUNT` entries were asked for. -/
theorem Counted.step (h : Counted s) (hs : step w s a = some t) : Counted t := by
  cases a with
  | xadd e =>
      simp only [RedisWindow.step, Option.ite_none_right_eq_some, Option.some.injEq] at hs
      obtain ⟨-, rfl⟩ := hs
      exact ⟨h.between, h.inside, h.after⟩
  | trim n =>
      cases hs
      exact ⟨h.between, h.inside, h.after⟩
  | pull =>
      obtain ⟨hret, hpulled⟩ := pull_cases hs
      cases hpulled with
      -- the call that found nothing is the one above the number of full pages
      | empty hb =>
          obtain ⟨hcalls, hpulls⟩ := h.between hb hret
          refine ⟨fun _ hret' => by (cases hret'), fun es n hes => ?_, fun _ => ?_⟩
          · rw [hb] at hes
            cases hes
          · dsimp only
            rw [Nat.mul_add, hcalls]
            omega
      -- a page that is begun has not been counted as full yet
      | fetched hb hpage =>
          obtain ⟨hcalls, hpulls⟩ := h.between hb hret
          refine ⟨fun hnone => by (cases hnone), ?_, fun hret' => ?_⟩
          · rintro es n ⟨⟩
            refine ⟨hret, List.length_pos_of_ne_nil hpage, List.length_take_le .., ?_, ?_⟩
            · dsimp only
              rw [Nat.mul_add, hcalls]
              omega
            · dsimp only
              omega
          · rw [hret] at hret'
            cases hret'
      -- one step for one entry
      | yielded e es n hb =>
          obtain ⟨_, hpos, hle, hcalls, hpulls⟩ := h.inside _ n hb
          refine ⟨fun hnone => by (cases hnone), ?_, fun hret' => ?_⟩
          · rintro es' n' ⟨⟩
            rw [List.length_cons] at hcalls
            refine ⟨hret, hpos, hle, ?_, ?_⟩
            · simp only [List.length_append, List.length_singleton]
              omega
            · simp only [List.length_append, List.length_singleton]
              omega
          · rw [hret] at hret'
            cases hret'
      | short n hb hn =>
          obtain ⟨_, _, hle, hcalls, hpulls⟩ := h.inside _ n hb
          rw [List.length_nil] at hcalls
          refine ⟨fun _ hret' => by (cases hret'), fun es m hes => by (cases hes), fun _ => ?_⟩
          dsimp only
          omega
      -- a full page and the step that leaves it
      | full n hb hn =>
          obtain ⟨_, _, hle, hcalls, hpulls⟩ := h.inside _ n hb
          rw [List.length_nil] at hcalls
          refine ⟨fun _ _ => ⟨?_, ?_⟩, fun es m hes => by (cases hes), fun hret' => ?_⟩
          · dsimp only
            omega
          · dsimp only
            omega
          · rw [hret] at hret'
            cases hret'

/-- With `N` events in all, there is one call more than full pages at most, and after so many
steps the generator has returned. -/
theorem Counted.bounds (h : Counted s) {N : Nat}
    (hin : ∀ es n, s.source.batch = some (es, n) → s.yielded.length + es.length ≤ N)
    (hout : s.yielded.length ≤ N) :
    s.calls ≤ N / batch_size + 1 ∧
    (N + 2 * (N / batch_size + 1) ≤ s.pulls → s.returned = true) := by
  cases hb : s.source.batch with
  | none =>
      cases hret : s.returned with
      | true =>
          have hcalls := h.after hret
          simp only [batch_size] at hcalls ⊢
          exact ⟨by omega, fun _ => trivial⟩
      | false =>
          obtain ⟨hcalls, hpulls⟩ := h.between hb hret
          simp only [batch_size] at hcalls ⊢
          exact ⟨by omega, fun _ => by omega⟩
  | some page =>
      obtain ⟨es, n⟩ := page
      obtain ⟨hret, hpos, hle, hcalls, hpulls⟩ := h.inside es n hb
      have hlen := hin es n hb
      simp only [batch_size] at hcalls ⊢
      exact ⟨by omega, fun _ => by omega⟩

end

/-! ## Exactness -/

/-- The entries a call of `stream_events` is asked for: after the checkpoint, or from
`start_ms` on without one, and up to `end_ms`. -/
def wanted (w : Window) : Option StreamId → RedisEntry → Bool
  | some c, e => decide (c < e.id) && decide (e.id.ms ≤ w.end_ms)
  | none, e => decide (w.start_ms ≤ e.id.ms) && decide (e.id.ms ≤ w.end_ms)

/-- The checkpoint argument: an id, or nothing. -/
def checkpoint_of (cp : Option StreamId) : Option Checkpoint := cp.map fun c => .id (.redis c)

/-- The bound of the generator and the end of the window, as a condition on entries: what the
caller asks for. -/
theorem xrange_eq_filter_wanted {w : Window} {cp : Option StreamId} {st : RedisStream}
    (hopen : RedisStream.open (checkpoint_of cp) = .ok st) (stream : List RedisEntry) :
    xrange stream (st.bound w) w.end_ms = stream.filter (wanted w cp) := by
  cases cp with
  | none => cases hopen; rfl
  | some c => cases hopen; rfl

/-- A stream that only grows is never asked for a page with something trimmed from it. -/
theorem untrimmed_of_run {w : Window} {stream : List RedisEntry} {st : RedisStream}
    {tr : List (State × Action)} {s : State}
    (hrun : Run (step w) (State.initial stream 0 st) tr s) (hgrows : StepsMeet Untrimmed tr) :
    StepsMeet (NoneLost w) tr := by
  have hzero : ∀ p ∈ tr, p.1.trimmed = 0 := hrun.invariant_mem (I := fun s => s.trimmed = 0)
    (fun s a t h hC hs => by
      cases a with
      | pull =>
          obtain ⟨-, hpulled⟩ := pull_cases hs
          cases hpulled <;> exact h
      | xadd e =>
          simp only [step, Option.ite_none_right_eq_some, Option.some.injEq] at hs
          obtain ⟨-, rfl⟩ := hs
          exact h
      | trim n => exact absurd hC id) rfl hgrows
  rintro ⟨s', a⟩ hp
  cases a with
  | pull =>
      intro _ e he
      rw [hzero _ hp, List.take_zero] at he
      cases he
  | xadd e => exact trivial
  | trim n => exact trivial

/-- **Pagination is exact.** Over a stream that only grows, from any checkpoint: what is
yielded is, in order of the ids and once each, the entries asked for that were in the stream
at the last `XRANGE`, and all of them once the generator has returned. It can always go on
until then, and with at most `N` entries asked for it makes at most `N / 100 + 1` calls and
returns. -/
theorem pagination_exact (w : Window) (cp : Option StreamId) (stream : List RedisEntry)
    (st : RedisStream) (hopen : RedisStream.open (checkpoint_of cp) = .ok st)
    (hsorted : RedisSorted stream) {tr : List (State × Action)} {s : State}
    (hrun : Run (step w) (State.initial stream 0 st) tr s) (hgrows : StepsMeet Untrimmed tr) :
    s.yielded <+: (s.seen.filter (wanted w cp)).map event ∧
    (s.returned = true → s.yielded = (s.seen.filter (wanted w cp)).map event) ∧
    (s.seen.filter (wanted w cp)).Pairwise (fun a b => a.id < b.id) ∧
    (s.returned = false → ∃ t, step w s .pull = some t) ∧
    ∀ N, (s.history.filter (wanted w cp)).length ≤ N →
      s.calls ≤ N / 100 + 1 ∧ (N + 2 * (N / 100 + 1) ≤ s.pulls → s.returned = true) := by
  -- one invariant for what is yielded, one for how many calls it takes
  have hpaging : Paging w (st.bound w) s := hrun.invariant
    (fun _ _ _ hI hC hs => hI.step hC hs) (Paging.initial hopen hsorted)
    (untrimmed_of_run hrun hgrows)
  have hcounted : Counted s := hrun.invariant (C := fun _ _ => True)
    (fun _ _ _ hI _ hs => hI.step hs) (Counted.initial hopen) (fun _ _ => trivial)
  have hrange := xrange_eq_filter_wanted (w := w) hopen
  obtain ⟨hfirst, hall⟩ := hpaging.yielded_eq
  rw [hrange] at hfirst hall
  refine ⟨hfirst, hall, ?_, pull_enabled, fun N hN => ?_⟩
  · exact (hpaging.base.sorted.sublist hpaging.base.seen_prefix.sublist).sublist List.filter_sublist
  · have hseen : (s.seen.filter (wanted w cp)).length ≤ N :=
      ((hpaging.base.seen_prefix.sublist.filter _).length_le).trans hN
    refine hcounted.bounds (fun es n hb => ?_) ?_
    · -- what is left of the page is outstanding
      obtain ⟨done, hyielded, hsplit⟩ := hpaging.yielded
      have hle := (hpaging.page es n hb).1.length_le
      rw [hrange] at hsplit
      have hlen := congrArg List.length hsplit
      rw [List.length_append] at hlen
      rw [hyielded, List.length_map]
      omega
    · have hle := hfirst.length_le
      rw [List.length_map] at hle
      omega

/-- A stream of three entries, two of them of one millisecond. -/
def threeEntries : List RedisEntry :=
  [⟨⟨10, 0⟩, sampleRecord "a"⟩, ⟨⟨10, 1⟩, sampleRecord "b"⟩, ⟨⟨12, 0⟩, sampleRecord "c"⟩]

/-- Resumed after the first entry, with a fourth added behind the only `XRANGE`. -/
theorem pagination_exact_resumed :
    ∃ s : State, s.returned = true ∧
      s.yielded = [⟨.redis ⟨10, 1⟩, sampleRecord "b"⟩, ⟨.redis ⟨12, 0⟩, sampleRecord "c"⟩] ∧
      s.yielded = (s.seen.filter (wanted ⟨10, 20⟩ (some ⟨10, 0⟩))).map event := by
  have hrun : ∃ tr s, Run (step ⟨10, 20⟩) (State.initial threeEntries 0
      { cursor := some ⟨10, 0⟩, resumed := true, batch := none, seen := 0 }) tr s ∧
      StepsMeet Untrimmed tr ∧ s.returned = true ∧
      s.yielded = [⟨.redis ⟨10, 1⟩, sampleRecord "b"⟩, ⟨.redis ⟨12, 0⟩, sampleRecord "c"⟩] :=
    exists_run_meeting_of_exec
      [.pull, .xadd ⟨⟨15, 0⟩, sampleRecord "d"⟩, .pull, .pull, .pull] (by decide) (by decide)
  obtain ⟨tr, s, hrun, hgrows, hret, hyielded⟩ := hrun
  exact ⟨s, hret, hyielded, (pagination_exact ⟨10, 20⟩ (some ⟨10, 0⟩) threeEntries _ rfl
    (by simp [RedisSorted, threeEntries, StreamId.lt_def]) hrun hgrows).2.1 hret⟩

end WalStream.Source.RedisWindow

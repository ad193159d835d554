/-
The target after a job whose calls time out.

The worker goes on to the next event when a call for the current one is answered, and that is
only after an apply for it. But the handlers of the attempts that timed out are still there,
and nothing tells them that the worker has moved on: one of them that has passed its dedup
check applies its event when it gets to it. If an event never takes effect after a later one,
the target comes out as if every event had been applied once, in the order of the stream. If
one does, a row may be left with an old value.
-/
import WalStream.Pipeline.System

set_option autoImplicit false

namespace WalStream.Pipeline

open Lib Replayer

/-! ## The keys of the events

The store of the replayer knows an event by its key as the column keeps it. Two events whose
keys are stored alike are one event to it, and the second is skipped; the results here are about
streams in which this does not happen. -/

/-- The key column does not take the key of one event for that of another. -/
def KeysApart (md5_16 : String → String) (events : List ChangeRecord) : Prop :=
  ∀ (j k : Nat) (event event' : ChangeRecord), events[j]? = some event →
    events[k]? = some event' →
    stored_key (compute_idempotency_key md5_16 event)
      = some (compute_idempotency_key md5_16 event') → j = k

/-! ## The condition

A statement may run late, when a later event has already taken effect. That is the one way in
which the order of the stream is lost, and the condition excludes it at the step where it would
happen, without a word on timeouts. -/

section

variable {τ : Type} [DecidableEq τ] {ι : τ → Type} [∀ n, DecidableEq (ι n)] [∀ n, Fintype (ι n)]
variable {V : (n : τ) → ι n → Type} [∀ n i, DecidableEq (V n i)]

/-- No later event has taken effect; and if this one has, an insert carries the keys by which
it is recognized. -/
def Timely {tgt : Target V} (events : List ChangeRecord) (s : Sys tgt) (i : Nat)
    (dflt : Defaults V) : Prop :=
  ∀ k ∈ s.sent i, ∀ x ∈ s.executed, x.1 ≤ k ∧
    (x.1 = k → ∀ event ∈ events[k]?, tgt.CarriesKeys event x.2 dflt)

/-- The step does not run the statement of an event after that of a later one. -/
def InTime {tgt : Target V} (events : List ChangeRecord) (s : Sys tgt) : Action V → Prop
  | .apply i dflt _ => Timely events s i dflt
  | .lose i dflt true => ∀ call ∈ s.server.calls i, call.phase = .applying → Timely events s i dflt
  | _ => True

/-! ## The invariant

The target is described by how many events have taken effect. It is the events up to the one in
hand, with it or without it, since an attempt that failed may have been carried out. -/

variable {cfg : Config} {tgt : Target V} {events : List ChangeRecord} {store₀ : DedupStore}
  {db₀ : tgt.Database}

/-- The first `n` events, each applied once, in order, and with success. -/
inductive AppliedOnce (tgt : Target V) (events : List ChangeRecord) (db₀ : tgt.Database) :
    Nat → tgt.Database → Prop
  | none : AppliedOnce tgt events db₀ 0 db₀
  | next {n : Nat} {db db' : tgt.Database} {dflt : Defaults V} {event : ChangeRecord}
      (h : AppliedOnce tgt events db₀ n db) (hevent : events[n]? = some event)
      (happly : tgt.apply dflt db event = (db', true)) : AppliedOnce tgt events db₀ (n + 1) db'

/-- No more events have taken effect than there are. -/
theorem AppliedOnce.le_length {n : Nat} {db : tgt.Database}
    (h : AppliedOnce tgt events db₀ n db) : n ≤ events.length := by
  cases h with
  | none => exact Nat.zero_le _
  | next _ hevent => exact (List.getElem?_eq_some_iff.mp hevent).1

/-- What has taken effect, as a sequence of applies with the defaults they met. `order_survives`
states its result in this form, because the defaults of an insert are whatever they were at its
execution. -/
theorem AppliedOnce.exists_runs {n : Nat} {db : tgt.Database}
    (h : AppliedOnce tgt events db₀ n db) :
    ∃ runs : List (Defaults V × ChangeRecord), runs.map Prod.snd = events.take n ∧
      tgt.apply_all db₀ runs = (db, List.replicate n true) := by
  induction h with
  | none => exact ⟨[], rfl, rfl⟩
  | @next n db db' dflt event h hevent happly ih =>
      obtain ⟨runs, hruns, hall⟩ := ih
      refine ⟨runs ++ [(dflt, event)], ?_, ?_⟩
      · rw [List.map_append, hruns, List.take_add_one, hevent]
        rfl
      · rw [Target.apply_all_append, hall]
        simp only [Target.apply_all, happly, List.replicate_succ']

/-- The call is one for event `k`. -/
def ForEvent (md5_16 : String → String) (events : List ChangeRecord) (k : Nat) (call : Call) :
    Prop :=
  events[k]? = some call.event ∧ call.idemp_key = compute_idempotency_key md5_16 call.event

/-- The invariant: `n` events have taken effect, those up to the one in hand, with it or
without it. -/
structure InOrder (md5_16 : String → String) (tgt : Target V) (events : List ChangeRecord)
    (store₀ : DedupStore) (db₀ : tgt.Database) (s : Sys tgt) (n : Nat) : Prop where
  once : AppliedOnce tgt events db₀ n s.db
  /-- The last of them left the database as it is. -/
  last : ∀ m, n = m + 1 → ∃ dflt db event, events[m]? = some event ∧
    tgt.apply dflt db event = (s.db, true) ∧ (m, dflt) ∈ s.executed
  lower : s.position ≤ n
  upper : n ≤ s.position + 1
  /-- A call is for an event the worker has got to, and credited only once that has taken
  effect. -/
  calls : ∀ i call, s.server.calls i = some call → ∃ k, s.sent i = some k ∧
    ForEvent md5_16 events k call ∧ k ≤ s.position ∧ (call.phase.credited = true → k < n)
  store : ∀ key expires_at, s.server.store.get? key = some expires_at →
    store₀.get? key ≠ none ∨ key = health_check_probe ∨
    ∃ k event, k < n ∧ events[k]? = some event ∧
      stored_key (compute_idempotency_key md5_16 event) = some key
  acked : ∀ was_dup, s.stage = .acked was_dup → s.position < n
  awaiting : ∀ i, s.call = some i → s.sent i = some s.position
  completed : s.status = .completed → events[s.position]? = none

/-! ## One step

The steps of the replayer are those of `Replayer.Server`, and what they do to a call is taken
from its inversions. Two of them run a statement: of the next event, which the number then
counts, or of the last one again, which changes nothing because the applier is idempotent. -/

variable {s t : Sys tgt} {n : Nat}

/-- The statement of the last event runs again, and changes nothing. This is where the
idempotence of the applier is used; an insert has to carry the keys by which it is
recognized. -/
theorem InOrder.again (h : InOrder cfg.md5_16 tgt events store₀ db₀ s n) {i k : Nat}
    {event : ChangeRecord} {dflt : Defaults V} {db' : tgt.Database} (hk : k < n)
    (hsent : s.sent i = some k) (hevent : events[k]? = some event)
    (htimely : Timely events s i dflt) (happly : tgt.apply dflt s.db event = (db', true)) :
    InOrder cfg.md5_16 tgt events store₀ db₀
      { s with db := db', executed := (k, dflt) :: s.executed } n := by
  obtain ⟨m, rfl⟩ : ∃ m, n = m + 1 := ⟨n - 1, by omega⟩
  obtain ⟨dflt₀, db, event₀, hevent₀, happly₀, hmem⟩ := h.last m rfl
  -- it is the last one, since no later event has taken effect
  obtain ⟨hle, hkeys⟩ := htimely k hsent _ hmem
  obtain rfl : m = k := Nat.le_antisymm hle (Nat.lt_succ_iff.mp hk)
  obtain rfl : event = event₀ := Option.some.inj (hevent.symm.trans hevent₀)
  have hagain := Target.apply_again (hkeys rfl event hevent) happly₀
  rw [happly, Prod.mk.injEq] at hagain
  obtain rfl := hagain.1
  exact { h with
    once := h.once
    last := fun m' hm' => by
      obtain rfl := Nat.succ.inj hm'
      exact ⟨dflt₀, db, event, hevent, happly₀, List.mem_cons_of_mem _ hmem⟩ }

/-- The statement of the next event runs. -/
theorem InOrder.next (h : InOrder cfg.md5_16 tgt events store₀ db₀ s n) {event : ChangeRecord}
    {dflt : Defaults V} {db' : tgt.Database} (hposition : n ≤ s.position)
    (hevent : events[n]? = some event) (happly : tgt.apply dflt s.db event = (db', true)) :
    InOrder cfg.md5_16 tgt events store₀ db₀
      { s with db := db', executed := (n, dflt) :: s.executed } (n + 1) :=
  { h with
    once := h.once.next hevent happly
    last := fun m hm => by
      obtain rfl := Nat.succ.inj hm
      exact ⟨dflt, s.db, event, hevent, happly, List.mem_cons_self ..⟩
    lower := h.lower.trans (Nat.le_succ n)
    upper := Nat.succ_le_succ hposition
    calls := fun i call hcall => by
      obtain ⟨k, hsent, hfor, hpos, hcredit⟩ := h.calls i call hcall
      exact ⟨k, hsent, hfor, hpos, fun hc => (hcredit hc).trans (Nat.lt_succ_self n)⟩
    store := fun key expires_at hget => by
      rcases h.store key expires_at hget with hold | hprobe | ⟨k, event', hk, hevent', hkey⟩
      · exact Or.inl hold
      · exact Or.inr (Or.inl hprobe)
      · exact Or.inr (Or.inr ⟨k, event', hk.trans (Nat.lt_succ_self n), hevent', hkey⟩)
    acked := fun was_dup hstage => (h.acked was_dup hstage).trans (Nat.lt_succ_self n) }

/-- The statement of an event runs, in time: it is the next event, or the last one again. -/
theorem InOrder.execute (h : InOrder cfg.md5_16 tgt events store₀ db₀ s n) {i k : Nat}
    {call : Call} {dflt : Defaults V} (hcall : s.server.calls i = some call)
    (hsent : s.sent i = some k) (htimely : Timely events s i dflt) :
    ∃ n', InOrder cfg.md5_16 tgt events store₀ db₀ (s.execute k call.event dflt).1 n' ∧
      ((s.execute k call.event dflt).2 = true → k < n') := by
  obtain ⟨k', hsent', ⟨hevent, -⟩, hposition, -⟩ := h.calls i call hcall
  obtain rfl : k = k' := Option.some.inj (hsent.symm.trans hsent')
  unfold Sys.execute
  split
  · rename_i db' happly
    by_cases hk : k < n
    · exact ⟨n, h.again hk hsent hevent htimely happly, fun _ => hk⟩
    · obtain rfl : k = n := Nat.le_antisymm (hposition.trans h.lower) (Nat.le_of_not_lt hk)
      exact ⟨k + 1, h.next hposition hevent happly, fun _ => Nat.lt_succ_self k⟩
  · exact ⟨n, h, fun hok => by cases hok⟩

/-- A step of the replayer: what it credits has taken effect. -/
theorem InOrder.serve (hkeys : KeysApart cfg.md5_16 events)
    (hnew : ∀ event ∈ events, store₀.get? (compute_idempotency_key cfg.md5_16 event) = none)
    (h : InOrder cfg.md5_16 tgt events store₀ db₀ s n) {a : Replayer.Action} {server : Server}
    (hs : Replayer.step cfg.md5_16 cfg.ttl s.server a = some server)
    (hreceive : ∀ i request, a ≠ .receive i request)
    (happly : ∀ i k, a = .apply i (.ok true) → s.sent i = some k → k < n) :
    InOrder cfg.md5_16 tgt events store₀ db₀ { s with server := server } n :=
  { h with
    once := h.once
    calls := fun i call hi => by
      have horigin := (call_origin hs hi).resolve_left (by
        rintro ⟨request, ha, -⟩
        exact hreceive i request ha)
      obtain ⟨call₀, hcall₀, hevent, hkey⟩ := horigin
      obtain ⟨k, hsent, hfor, hposition, hcredited⟩ := h.calls i call₀ hcall₀
      refine ⟨k, hsent, ⟨by rw [← hevent]; exact hfor.1, by rw [← hevent, ← hkey]; exact hfor.2⟩,
        hposition, fun hcredit => ?_⟩
      obtain ⟨call₁, hcall₁, -, hcase⟩ := credited_cases hs hi hcredit
      obtain rfl : call₀ = call₁ := Option.some.inj (hcall₀.symm.trans hcall₁)
      rcases hcase with hbefore | ⟨-, hlive⟩ | ha
      · exact hcredited hbefore
      · -- the key of the event is in the store, so an apply for this event has put it there
        unfold key_exists at hlive
        split at hlive
        · rename_i expires_at hget
          rw [hfor.2] at hget
          rcases h.store _ _ hget with hold | hprobe | ⟨k', event, hk', hevent', hstored⟩
          · exact absurd (hnew _ (List.mem_of_getElem? hfor.1)) hold
          · exact absurd hprobe (computed_ne_probe _ _)
          · rwa [hkeys k' k _ _ hevent' hfor.1 hstored] at hk'
        · cases hlive
      · exact happly i k ha hsent
    -- a key that is stored now is that of a call that was credited, or the probe's
    store := fun key expires_at hget => by
      rcases store_cases hs with hsame | ⟨i, call, stored, expires, hstores, -, hset, -⟩ |
        ⟨expires, -, hset⟩ | hfilter
      · rw [hsame] at hget
        exact h.store key expires_at hget
      · rw [hset, Dict.get?_set] at hget
        split at hget
        · rename_i hkey
          obtain ⟨k, -, hfor, -, hcredited⟩ := h.calls i call hstores.found
          refine Or.inr (Or.inr ⟨k, call.event, hcredited ?_, hfor.1, ?_⟩)
          · rw [hstores.marking]
            rfl
          · rw [← hfor.2, hkey]
            exact hstores.key
        · exact h.store key expires_at hget
      · rw [hset, Dict.get?_set] at hget
        split at hget
        · rename_i hkey
          exact Or.inr (Or.inl hkey)
        · exact h.store key expires_at hget
      · rw [hfilter, Dict.get?_filter_eq_some_iff] at hget
        exact h.store key expires_at hget.1 }

/-- The worker sends the event in hand. -/
theorem InOrder.send (h : InOrder cfg.md5_16 tgt events store₀ db₀ s n) {i attempt : Nat}
    {event : ChangeRecord} {server : Server} (hevent : events[s.position]? = some event)
    (hs : Replayer.step cfg.md5_16 cfg.ttl s.server (.receive i ⟨event, ""⟩) = some server) :
    InOrder cfg.md5_16 tgt events store₀ db₀
      { s with
        server := server,
        stage := .awaiting attempt,
        call := some i,
        sent := Function.update s.sent i (some s.position) } n := by
  cases step_took hs with
  | receive _ _ hfree =>
      exact { h with
        once := h.once
        calls := fun j call hj => by
          dsimp only at hj ⊢
          by_cases hji : j = i
          · subst hji
            rw [Function.update_self, Option.some.injEq] at hj
            subst hj
            rw [Function.update_self]
            exact ⟨s.position, rfl, ⟨hevent, rfl⟩, le_rfl, fun hcredit => by cases hcredit⟩
          · rw [Function.update_of_ne hji] at hj ⊢
            exact h.calls j call hj
        acked := by simp
        awaiting := fun j hj => by
          obtain rfl := Option.some.inj hj
          exact Function.update_self .. }

/-- An attempt ends. If it lets the worker go on, its event has taken effect. -/
theorem InOrder.attempted (h : InOrder cfg.md5_16 tgt events store₀ db₀ s n)
    {max_event_retries attempt : Nat} {success was_dup : Bool}
    (hdone : (success || was_dup) = true → s.position < n) :
    InOrder cfg.md5_16 tgt events store₀ db₀
      { s with
        stage := after_attempt max_event_retries attempt success was_dup,
        call := none } n :=
  { h with
    once := h.once
    acked := fun _ hacked => hdone (answered_of_acked hacked)
    awaiting := by simp }

/-- The response of a call that was sent for the event in hand. -/
theorem InOrder.answered (h : InOrder cfg.md5_16 tgt events store₀ db₀ s n) {i : Nat} {call : Call}
    {response : ReplayResponse} (hi : s.call = some i) (hcall : s.server.calls i = some call)
    (hph : call.phase = .answered response)
    (hanswer : (response.success || response.was_duplicate) = true) : s.position < n := by
  obtain ⟨k, hsent, -, -, hcredited⟩ := h.calls i call hcall
  obtain rfl : s.position = k := Option.some.inj ((h.awaiting i hi).symm.trans hsent)
  exact hcredited (by rw [hph]; exact hanswer)

/-- The worker goes on when the event in hand is acknowledged, and then it has taken effect: the
next one is in hand, and the number of those that took effect is the same. -/
theorem InOrder.advance (h : InOrder cfg.md5_16 tgt events store₀ db₀ s n) {was_dup : Bool}
    (hrunning : s.status = .running) (hstage : s.stage = .acked was_dup) :
    InOrder cfg.md5_16 tgt events store₀ db₀
      { s with position := s.position + 1, stage := .ready 1, call := none } n :=
  { h with
    once := h.once
    lower := h.acked was_dup hstage
    upper := h.upper.trans (Nat.le_succ _)
    calls := fun i call hi => by
      obtain ⟨k, hsent, hfor, hposition, hcredited⟩ := h.calls i call hi
      exact ⟨k, hsent, hfor, hposition.trans (Nat.le_succ _), hcredited⟩
    acked := by simp
    awaiting := by simp
    completed := fun hcompleted => by
      dsimp only at hcompleted
      rw [hrunning] at hcompleted
      cases hcompleted }

/-- A handler that has passed its check has its statement run. Whether it is the first one for
the event or a late one, it is for the last event that took effect or for the next. -/
theorem InOrder.apply (hkeys : KeysApart cfg.md5_16 events)
    (hnew : ∀ event ∈ events, store₀.get? (compute_idempotency_key cfg.md5_16 event) = none)
    (h : InOrder cfg.md5_16 tgt events store₀ db₀ s n) {i : Nat} {dflt : Defaults V}
    {broken : Option Bool} (htimely : Timely events s i dflt)
    (hs : Pipeline.step cfg tgt events s (.apply i dflt broken) = some t) :
    ∃ n', InOrder cfg.md5_16 tgt events store₀ db₀ t n' := by
  simp only [Pipeline.step] at hs
  split at hs
  · rename_i call k hcall hsent
    obtain ⟨n', hexecuted, hdone⟩ := h.execute hcall hsent htimely
    obtain ⟨hserver, hsame⟩ := Sys.execute_frame s k call.event dflt
    generalize s.execute k call.event dflt = executed at hs hexecuted hdone hserver hsame
    obtain ⟨s', ok⟩ := executed
    dsimp only at hs hexecuted hdone hserver hsame
    cases broken with
    | none =>
        obtain ⟨server, hstep, rfl⟩ := Option.map_eq_some_iff.mp hs
        rw [← hserver] at hstep
        refine ⟨n', hexecuted.serve hkeys hnew hstep (by simp) fun j k' ha hj => ?_⟩
        -- `apply` returned `True`: the statement took effect
        cases ha
        rw [hsame, hsent] at hj
        obtain rfl := Option.some.inj hj
        exact hdone rfl
    | some carried_out =>
        obtain ⟨server, hstep, rfl⟩ := Option.map_eq_some_iff.mp hs
        cases carried_out with
        | true =>
            rw [← hserver] at hstep
            exact ⟨n', hexecuted.serve hkeys hnew hstep (by simp) (by simp)⟩
        | false => exact ⟨n, h.serve hkeys hnew hstep (by simp) (by simp)⟩
  · cases hs

/-- A handler that ends in the middle of its apply may have had it carried out; the target is
then as if it had gone on. -/
theorem InOrder.lose (hkeys : KeysApart cfg.md5_16 events)
    (hnew : ∀ event ∈ events, store₀.get? (compute_idempotency_key cfg.md5_16 event) = none)
    (h : InOrder cfg.md5_16 tgt events store₀ db₀ s n) {i : Nat} {dflt : Defaults V}
    {carried_out : Bool} (htime : InTime events s (.lose i dflt carried_out))
    (hs : Pipeline.step cfg tgt events s (.lose i dflt carried_out) = some t) :
    ∃ n', InOrder cfg.md5_16 tgt events store₀ db₀ t n' := by
  simp only [Pipeline.step] at hs
  split at hs
  · rename_i call k hcall hsent
    obtain ⟨server, hstep, rfl⟩ := Option.map_eq_some_iff.mp hs
    split
    · rename_i hrun
      rw [Bool.and_eq_true, beq_iff_eq] at hrun
      obtain ⟨rfl, hph⟩ := hrun
      obtain ⟨n', hexecuted, -⟩ := h.execute hcall hsent (htime call hcall hph)
      rw [← (Sys.execute_frame s k call.event dflt).1] at hstep
      exact ⟨n', hexecuted.serve hkeys hnew hstep (by simp) (by simp)⟩
    · exact ⟨n, h.serve hkeys hnew hstep (by simp) (by simp)⟩
  · cases hs

/-- **One step** in time. Of the steps of the replayer only two run a statement, and of those of
the worker only one moves it to the next event. -/
theorem InOrder.step (hkeys : KeysApart cfg.md5_16 events)
    (hnew : ∀ event ∈ events, store₀.get? (compute_idempotency_key cfg.md5_16 event) = none)
    (h : InOrder cfg.md5_16 tgt events store₀ db₀ s n) {a : Action V} (htime : InTime events s a)
    (hs : Pipeline.step cfg tgt events s a = some t) :
    ∃ n', InOrder cfg.md5_16 tgt events store₀ db₀ t n' := by
  cases a with
  -- the worker's steps: only `advance` takes the next event in hand
  | send i =>
      simp only [Pipeline.step] at hs
      split at hs
      · rename_i attempt event _ _ hevent
        obtain ⟨server, hserver, rfl⟩ := Option.map_eq_some_iff.mp hs
        exact ⟨n, h.send hevent hserver⟩
      · cases hs
  | answer =>
      simp only [Pipeline.step] at hs
      split at hs
      · rename_i attempt call _ _ hcall
        split at hs
        · rename_i response hph
          cases hs
          obtain ⟨i, hi, hcall⟩ := Option.bind_eq_some_iff.mp hcall
          exact ⟨n, h.attempted (h.answered hi hcall hph)⟩
        · cases hs
      · cases hs
  | timeout =>
      simp only [Pipeline.step] at hs
      split at hs
      · cases hs
        exact ⟨n, h.attempted fun hanswer => by cases hanswer⟩
      · cases hs
  | advance =>
      simp only [Pipeline.step] at hs
      split at hs
      · rename_i was_dup hrunning hstage
        cases hs
        exact ⟨n, h.advance hrunning hstage⟩
      · cases hs
  | complete =>
      simp only [Pipeline.step] at hs
      split at hs
      · rename_i hend
        cases hs
        exact ⟨n, { h with once := h.once, completed := fun _ => hend }⟩
      · cases hs
  | fail =>
      simp only [Pipeline.step] at hs
      split at hs
      · cases hs
        exact ⟨n, { h with once := h.once, completed := by simp }⟩
      · cases hs
  -- another worker begins with the event in hand and knows nothing of its attempts
  | restart =>
      simp only [Pipeline.step] at hs
      split at hs
      · cases hs
        exact ⟨n, { h with once := h.once, acked := by simp, awaiting := by simp }⟩
      · cases hs
  -- the two steps that run a statement, and the others of the replayer
  | apply i dflt broken => exact h.apply hkeys hnew htime hs
  | lose i dflt carried_out => exact h.lose hkeys hnew htime hs
  | server a =>
      simp only [Pipeline.step] at hs
      split at hs
      · rename_i hinternal
        obtain ⟨server, hserver, rfl⟩ := Option.map_eq_some_iff.mp hs
        refine ⟨n, h.serve hkeys hnew hserver ?_ ?_⟩
        · rintro i request rfl
          cases hinternal
        · rintro i k rfl
          cases hinternal
      · cases hs

/-- Nothing has taken effect, and nothing is in hand. -/
theorem inOrder_initial (store : DedupStore) (clock : Int) :
    InOrder cfg.md5_16 tgt events store db₀ (Sys.initial tgt store clock db₀) 0 where
  once := .none
  last := fun m hm => by cases hm
  lower := le_rfl
  upper := Nat.zero_le _
  calls i call hi := by cases hi
  store key expires_at hget := Or.inl (by
    rw [show store.get? key = some expires_at from hget]
    exact Option.some_ne_none _)
  acked was_dup hstage := by cases hstage
  awaiting i hi := by cases hi
  completed hcompleted := by cases hcompleted

/-! ## Runs

The condition is needed at every step of the run; what it gives is a statement about the state
at its end, and so about the completed job when the run ends with one. -/

/-- **Order survives retries and timeouts.** If the keys of the events are kept apart and are
not in the store at first, and in no step the statement of an event runs after that of a later
one has taken effect, then the target of a completed job is what applying each event once, in
the order of the stream, makes of it. -/
theorem order_survives {clock : Int} {tr : List (Sys tgt × Action V)}
    (hkeys : KeysApart cfg.md5_16 events)
    (hnew : ∀ event ∈ events, store₀.get? (compute_idempotency_key cfg.md5_16 event) = none)
    (hrun : Run (Pipeline.step cfg tgt events) (Sys.initial tgt store₀ clock db₀) tr s)
    (htime : StepsMeet (InTime events) tr) (hcompleted : s.status = .completed) :
    ∃ runs : List (Defaults V × ChangeRecord), runs.map Prod.snd = events ∧
      tgt.apply_all db₀ runs = (s.db, List.replicate events.length true) := by
  obtain ⟨n, h⟩ := hrun.invariant
    (I := fun s => ∃ n, InOrder cfg.md5_16 tgt events store₀ db₀ s n)
    (fun s a t hI hC hs => by
      obtain ⟨n, hn⟩ := hI
      exact hn.step hkeys hnew hC hs)
    ⟨0, inOrder_initial store₀ clock⟩ htime
  have hend : events.length ≤ n :=
    (List.getElem?_eq_none_iff.mp (h.completed hcompleted)).trans h.lower
  obtain rfl : n = events.length := Nat.le_antisymm h.once.le_length hend
  obtain ⟨runs, hruns, hall⟩ := h.once.exists_runs
  rw [List.take_length] at hruns
  exact ⟨runs, hruns, hall⟩

/-! ### One row that is updated twice -/

/-- No later event has taken effect. -/
def NoneLater (s : Sys tgt) : Action V → Prop
  | .apply i _ _ => ∀ k ∈ s.sent i, ∀ x ∈ s.executed, x.1 ≤ k
  | .lose i _ true => ∀ k ∈ s.sent i, ∀ x ∈ s.executed, x.1 ≤ k
  | _ => True

instance (s : Sys tgt) : DecidablePred (NoneLater s) := fun a => by
  cases a with
  | lose i dflt carried_out => cases carried_out <;> unfold NoneLater <;> infer_instance
  | _ => unfold NoneLater; infer_instance

omit [DecidableEq τ] [∀ n, DecidableEq (ι n)] [∀ n, Fintype (ι n)]
  [∀ n i, DecidableEq (V n i)] in
/-- Without inserts there is nothing more to the condition. -/
theorem inTime_of_noneLater (hevents : ∀ event ∈ events, event.operation ≠ "INSERT")
    {a : Action V} (h : NoneLater s a) : InTime events s a := by
  have htimely : ∀ {i : Nat} {dflt : Defaults V},
      (∀ k ∈ s.sent i, ∀ x ∈ s.executed, x.1 ≤ k) → Timely events s i dflt :=
    fun hle k hk x hx => ⟨hle k hk x hx, fun _ event hevent hinsert =>
      absurd hinsert (hevents event (List.mem_of_getElem? hevent))⟩
  cases a with
  | apply i dflt broken => exact htimely h
  | lose i dflt carried_out =>
      cases carried_out with
      | true => exact fun _ _ _ => htimely h
      | false => exact trivial
  | _ => exact trivial

end

/-- `UPDATE public.t SET code = … WHERE id = 'a'` -/
def setCode (lsn code : String) : ChangeRecord :=
  { sampleRecord lsn with
    operation := "UPDATE",
    old := Dict.empty.set "id" "a",
    new := Dict.empty.set "code" code }

def sample_config : Config := { md5_16 := md5Prefix, ttl := 604800, max_event_retries := 3 }

/-- The call `i` passes its check. -/
abbrev checked (i : Nat) : Action fun (_ : Unit) (_ : Target.CodeColumn) => String :=
  .server (.check i false)

/-- The statement of call `i` runs, and its key is stored. -/
def applied (i : Nat) : List (Action fun (_ : Unit) (_ : Target.CodeColumn) => String) :=
  [.apply i (Target.codeDefault "9") none, .server (.stamp i), .server (.mark i none)]

/-- The first attempt times out, and its statement runs beside that of the second. -/
theorem order_survives_retried :
    ∃ tr s, Run (Pipeline.step sample_config Target.codeTarget [setCode "1" "2"])
        (Sys.initial Target.codeTarget Dict.empty 0 Target.oneCode) tr s ∧
      s.status = .completed ∧ s.executed.map Prod.fst = [0, 0] ∧
      ∃ runs : List (Defaults _ × ChangeRecord), runs.map Prod.snd = [setCode "1" "2"] ∧
        Target.codeTarget.apply_all Target.oneCode runs = (s.db, [true]) := by
  have hrun : ∃ tr s, Run (Pipeline.step sample_config Target.codeTarget [setCode "1" "2"])
      (Sys.initial Target.codeTarget Dict.empty 0 Target.oneCode) tr s ∧ StepsMeet NoneLater tr ∧
      s.status = .completed ∧ s.executed.map Prod.fst = [0, 0] :=
    exists_run_meeting_of_exec
      ([.send 0, checked 0, .timeout, .send 1, checked 1] ++ applied 0 ++ applied 1 ++
        [.answer, .advance, .complete])
      (by decide) (by decide)
  obtain ⟨tr, s, hrun, htime, hcompleted, hexecuted⟩ := hrun
  have hapart : KeysApart sample_config.md5_16 [setCode "1" "2"] := by
    intro j k event event' hj hk _
    rw [List.getElem?_singleton] at hj hk
    split at hj <;> split at hk <;> simp_all
  exact ⟨tr, s, hrun, hcompleted, hexecuted, order_survives hapart (fun _ _ => rfl) hrun
    (fun p hp => inTime_of_noneLater (by simp [setCode]) (htime p hp)) hcompleted⟩

/-- The two updates, in the order of the stream. -/
def two_updates : List ChangeRecord := [setCode "1" "2", setCode "2" "3"]

/-- The first attempt for the first event times out after its check. The second one succeeds,
so does the call for the second event, and the job is completed; then the statement of the
first attempt runs. -/
def late_actions : List (Action fun (_ : Unit) (_ : Target.CodeColumn) => String) :=
  [.send 0, checked 0, .timeout, .send 1, checked 1] ++ applied 1 ++
    [.answer, .advance, .send 2, checked 2] ++ applied 2 ++ [.answer, .advance, .complete] ++
    applied 0

/-- The two updates have different keys. -/
theorem two_updates_apart : KeysApart md5Prefix two_updates := by
  intro j k event event' hj hk hstored
  have hindex : ∀ (i : Nat) (e : ChangeRecord), two_updates[i]? = some e →
      (i = 0 ∧ e = setCode "1" "2") ∨ (i = 1 ∧ e = setCode "2" "3") := by
    intro i e hi
    rcases i with _ | _ | i
    · exact Or.inl ⟨rfl, (Option.some.inj hi).symm⟩
    · exact Or.inr ⟨rfl, (Option.some.inj hi).symm⟩
    · cases hi
  rcases hindex j event hj with ⟨rfl, rfl⟩ | ⟨rfl, rfl⟩ <;>
    rcases hindex k event' hk with ⟨rfl, rfl⟩ | ⟨rfl, rfl⟩
  · rfl
  · exact absurd hstored (by decide)
  · exact absurd hstored (by decide)
  · rfl

/-- An old value that stays: all calls have ended, the job is completed, and the row has the
value of the first update, whatever the defaults are in the order of the stream. -/
theorem late_apply_wins :
    KeysApart sample_config.md5_16 two_updates ∧
    ∃ tr s, Run (Pipeline.step sample_config Target.codeTarget two_updates)
        (Sys.initial Target.codeTarget Dict.empty 0 Target.oneCode) tr s ∧
      (∀ p ∈ tr, ∀ i, p.2 = .send i → i < 3) ∧
      (∀ i < 3, ∀ call ∈ s.server.calls i, call.phase.ended = true) ∧
      s.status = .completed ∧ (s.db ()).rows = {Target.codeRow "a" "2"} ∧
      ∀ runs : List (Defaults _ × ChangeRecord), runs.map Prod.snd = two_updates →
        ((Target.codeTarget.apply_all Target.oneCode runs).1 ()).rows
          = {Target.codeRow "a" "3"} := by
  have hend : (exec (Pipeline.step sample_config Target.codeTarget two_updates)
      (Sys.initial Target.codeTarget Dict.empty 0 Target.oneCode) late_actions).map
      (fun s : Sys Target.codeTarget => decide ((∀ i < (3 : Nat), ∀ call ∈ s.server.calls i, call.phase.ended = true) ∧
        s.status = .completed ∧ (s.db ()).rows = {Target.codeRow "a" "2"})) = some true := by
    decide
  obtain ⟨s, hs, hend⟩ := Option.map_eq_some_iff.mp hend
  obtain ⟨hended, hcompleted, hrows⟩ := of_decide_eq_true hend
  refine ⟨two_updates_apart, _, s, run_trace hs, fun p hp i ha => ?_, hended, hcompleted, hrows,
    ?_⟩
  · have hmem := mem_of_mem_trace hp
    rw [ha] at hmem
    simp [late_actions, applied] at hmem
    omega
  · intro runs hruns
    obtain ⟨⟨dflt, event⟩, runs, rfl, hevent, hruns⟩ := List.map_eq_cons_iff.mp hruns
    obtain ⟨⟨dflt', event'⟩, runs, rfl, hevent', hruns⟩ := List.map_eq_cons_iff.mp hruns
    obtain rfl := List.map_eq_nil_iff.mp hruns
    dsimp only at hevent hevent'
    subst hevent hevent'
    simp only [Target.apply_all]
    rw [Target.apply_of_not_insert _ dflt (Target.codeDefault "9") _ (by decide),
      Target.apply_of_not_insert _ dflt' (Target.codeDefault "9") _ (by decide)]
    decide

end WalStream.Pipeline

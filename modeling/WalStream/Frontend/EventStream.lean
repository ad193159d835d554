/-
The event stream of the web frontend.

Two feeds write into one list. The WebSocket brings the events that come after the
connection was made, oldest first; on every connection the newest hundred entries of the
stream are asked for as well, and they come newest first. Both are put in front of the list
one by one, so a response of more than one event ends up the wrong way round, and one that
overlaps with what is already listed lists it again. `newest_first_iff` says which runs are
spared.

The stream is given newest first, and nothing is trimmed off its far end. Heartbeats, which
the handler ignores, are left out.
-/
import WalStream.Lib.Run
import WalStream.Source.Event

set_option autoImplicit false

namespace WalStream.Frontend

open Lib

/-! ## The store

The list with its bound, and `addEvent`, by which both feeds write to it. -/

/-- `CDCEvent`: an entry of the stream, with the record if its payload could be parsed. -/
structure CDCEvent where
  id : StreamId
  event : Option ChangeRecord
deriving DecidableEq

def MAX_EVENTS : Nat := 1000

/-- `EventState`, as far as the list of events depends on it. -/
structure EventState where
  events : List CDCEvent
  isPaused : Bool
deriving DecidableEq

namespace EventState

def addEvent (state : EventState) (event : CDCEvent) : EventState :=
  if state.isPaused then state
  else { state with events := (event :: state.events).take MAX_EVENTS }

def addEvents (state : EventState) (events : List CDCEvent) : EventState :=
  if state.isPaused then state
  else { state with events := (events ++ state.events).take MAX_EVENTS }

def clearEvents (state : EventState) : EventState := { state with events := [] }

def setPaused (state : EventState) (paused : Bool) : EventState := { state with isPaused := paused }

end EventState

/-- What the list of events is meant to be. -/
structure NewestFirst (events : List CDCEvent) : Prop where
  once : (events.map CDCEvent.id).Nodup
  descending : events.Pairwise fun a b => b.id < a.id
  bounded : events.length ≤ MAX_EVENTS

instance (events : List CDCEvent) : Decidable (NewestFirst events) :=
  decidable_of_iff ((events.map CDCEvent.id).Nodup ∧
    (events.Pairwise fun a b => b.id < a.id) ∧ events.length ≤ MAX_EVENTS)
    ⟨fun ⟨ho, hd, hb⟩ => ⟨ho, hd, hb⟩, fun h => ⟨h.once, h.descending, h.bounded⟩⟩

/-- The event is newer than all that is listed. -/
def NewerThan (events : List CDCEvent) (event : CDCEvent) : Prop :=
  ∀ x ∈ events.head?, x.id < event.id

instance (events : List CDCEvent) (event : CDCEvent) : Decidable (NewerThan events event) :=
  inferInstanceAs (Decidable (∀ x ∈ events.head?, _))

/-! ## The server

The Redis stream, and the one request that reads it backwards. A response is what the stream was
when the server answered, and may be handled much later. -/

/-- The Redis stream, newest entry first. -/
structure EventLog where
  entries : List CDCEvent
  descending : entries.Pairwise fun a b => b.id < a.id

/-- The body of a response to `GET /events/recent`. -/
structure RecentEvents (count : Nat) where
  events : List CDCEvent
  descending : events.Pairwise fun a b => b.id < a.id
  length_le : events.length ≤ count

/-- `XADD`: Redis accepts only an id above the last. -/
def EventLog.xadd (log : EventLog) (entry : CDCEvent) : Option EventLog :=
  if h : ∀ x ∈ log.entries, x.id < entry.id then
    some ⟨entry :: log.entries, List.pairwise_cons.mpr ⟨h, log.descending⟩⟩
  else none

/-- `get_recent_events`, without a table filter. -/
def get_recent_events (log : EventLog) (count : Nat) : RecentEvents count :=
  { events := log.entries.take count,
    descending := log.descending.sublist (List.take_sublist ..),
    length_le := List.length_take_le .. }

/-- What `get_recent_events` returns after an exception. -/
def RecentEvents.none_found (count : Nat) : RecentEvents count :=
  { events := [],
    descending := List.Pairwise.nil,
    length_le := Nat.zero_le count }

/-! ## The WebSocket, and the handlers of its messages

Messages come in the order of the stream; a connection begins at its end. Nothing relates them
to the responses of the request but the time at which they are handled. -/

inductive EventType
  | change_event
  | heartbeat
  | job_update
deriving DecidableEq, Repr

/-- `EventStreamMessage`. -/
structure EventStreamMessage where
  event_type : EventType
  payload : Option CDCEvent

/-- What `websocket_event_stream` sends for an entry: nothing if it could not be parsed. -/
def stream_message (entry : CDCEvent) : Option EventStreamMessage :=
  entry.event.map fun _ => ⟨.change_event, some entry⟩

/-- The events for which `handleMessage` calls `addEvent`. -/
def handleMessage (message : EventStreamMessage) : List CDCEvent :=
  if message.event_type = .change_event then message.payload.toList else []

/-- `WebSocketStatus`. A socket in error is one about to be closed. -/
inductive WebSocketStatus
  | connecting
  | connected
  | disconnected
deriving DecidableEq, Repr

structure Sys where
  log : EventLog
  status : WebSocketStatus
  /-- How many entries the consumer group of the connection has behind it. -/
  group : Option Nat
  /-- The requests under way, each with its response once the server has answered. -/
  requests : List (Option (RecentEvents 100))
  store : EventState

inductive Action
  /-- The ingestor adds an entry. -/
  | publish (entry : CDCEvent)
  | connect
  /-- The server creates the consumer group, at `$`. -/
  | group_create
  | onopen
  /-- A message for the next entry arrives, or for a later one: the group has been past the
  entries in between, but what was sent of them is lost. -/
  | onmessage (lost : Nat)
  | onclose
  /-- The server answers a request, with an empty list if something went wrong. -/
  | answer (request : Nat) (failed : Bool)
  | resolve (request : Nat)
  | reject (request : Nat)
  | setPaused (paused : Bool)
  | clearEvents

/-- The frontend is loaded. -/
def Sys.initial (log : EventLog) : Sys :=
  { log := log,
    status := .disconnected,
    group := none,
    requests := [],
    store := ⟨[], false⟩ }

/-- The entry the message is about. -/
def Sys.entry? (s : Sys) (lost : Nat) : Option CDCEvent :=
  s.group.bind fun seen => s.log.entries.reverse[seen + lost]?

/-- The response to the request, if the server has answered it. -/
def Sys.response? (s : Sys) (request : Nat) : Option (RecentEvents 100) :=
  s.requests[request]?.join

/-- The events `addEvent` is called with, in this order. -/
def handled (s : Sys) : Action → List CDCEvent
  | .onmessage lost => ((s.entry? lost).bind stream_message).elim [] handleMessage
  | .resolve request => (s.response? request).elim [] RecentEvents.events
  | _ => []

def step (s : Sys) (a : Action) : Option Sys :=
  match a with
  | .publish entry => (s.log.xadd entry).map fun log => { s with log := log }
  | .connect =>
      if s.status = .disconnected then some { s with status := .connecting } else none
  | .group_create =>
      if s.status ≠ .disconnected ∧ s.group = none then
        some { s with group := some s.log.entries.length }
      else none
  | .onopen =>
      -- `useEffect` asks for the newest entries whenever the status becomes `connected`
      if s.status = .connecting then
        some { s with status := .connected, requests := s.requests ++ [none] }
      else none
  | .onmessage lost =>
      if s.status = .connected ∧ (s.entry? lost).isSome then
        some { s with
          group := s.group.map (· + lost + 1),
          store := (handled s a).foldl EventState.addEvent s.store }
      else none
  | .onclose =>
      if s.status ≠ .disconnected then
        some { s with status := .disconnected, group := none }
      else none
  | .answer request failed =>
      if s.requests[request]?.any Option.isNone then
        let events := if failed then .none_found 100 else get_recent_events s.log 100
        some { s with requests := s.requests.set request (some events) }
      else none
  | .resolve request =>
      if (s.response? request).isSome then
        some { s with
          requests := s.requests.eraseIdx request,
          store := (handled s a).foldl EventState.addEvent s.store }
      else none
  | .reject request =>
      if request < s.requests.length then
        some { s with requests := s.requests.eraseIdx request }
      else none
  | .setPaused paused => some { s with store := s.store.setPaused paused }
  | .clearEvents => some { s with store := s.store.clearEvents }

/-! ## What a step does to the store

A step either leaves the list alone or handles one message or one response, and then the events
are known in advance. -/

section

variable {s t : Sys} {a : Action}

theorem step_store (h : step s a = some t) :
    t.store = match a with
      | .setPaused paused => s.store.setPaused paused
      | .clearEvents => s.store.clearEvents
      | a => (handled s a).foldl EventState.addEvent s.store := by
  cases a with
  | publish entry =>
      simp only [step, Option.map_eq_some_iff] at h
      obtain ⟨log, -, rfl⟩ := h
      rfl
  | setPaused paused =>
      cases h
      rfl
  | clearEvents =>
      cases h
      rfl
  | _ =>
      simp only [step, Option.ite_none_right_eq_some, Option.some.injEq] at h
      obtain ⟨-, rfl⟩ := h
      rfl

/-- What is handled at once is one message or one response, newest first. -/
theorem handled_descending (s : Sys) (a : Action) :
    ((handled s a).Pairwise fun a b => b.id < a.id) ∧ (handled s a).length ≤ MAX_EVENTS := by
  cases a with
  | onmessage lost =>
      simp only [handled]
      cases (s.entry? lost).bind stream_message with
      | none => exact ⟨List.Pairwise.nil, Nat.zero_le _⟩
      | some message =>
          simp only [Option.elim_some, handleMessage]
          split
          · cases message.payload with
            | none => exact ⟨List.Pairwise.nil, Nat.zero_le _⟩
            | some e => exact ⟨List.pairwise_singleton _ e, (by decide : 1 ≤ MAX_EVENTS)⟩
          · exact ⟨List.Pairwise.nil, Nat.zero_le _⟩
  | resolve request =>
      simp only [handled]
      cases s.response? request with
      | none => exact ⟨List.Pairwise.nil, Nat.zero_le _⟩
      | some recent => exact ⟨recent.descending, Nat.le_trans recent.length_le (by decide)⟩
  | _ => exact ⟨List.Pairwise.nil, Nat.zero_le _⟩

end

/-! ## Adding events

Events are put in front one by one, so a list of several is turned around: newest first before,
oldest first afterwards. -/

section

variable {events : List CDCEvent} {event : CDCEvent} {state : EventState}

/-- Descending says it all but for the bound. -/
theorem newestFirst_of_descending (hd : events.Pairwise fun a b => b.id < a.id)
    (hb : events.length ≤ MAX_EVENTS) : NewestFirst events := by
  refine ⟨?_, hd, hb⟩
  rw [List.nodup_iff_pairwise_ne, List.pairwise_map]
  refine hd.imp fun hab heq => ?_
  rw [heq] at hab
  exact StreamId.lt_irrefl _ hab

/-- An event newer than the head of the list is newer than the rest of it too. -/
theorem NewerThan.forall_mem (h : NewerThan events event)
    (hd : events.Pairwise fun a b => b.id < a.id) : ∀ x ∈ events, x.id < event.id := by
  cases events with
  | nil => intro x hx; cases hx
  | cons y ys =>
      have hy : y.id < event.id := h y rfl
      intro x hx
      rcases List.mem_cons.mp hx with rfl | hx
      · exact hy
      · exact StreamId.lt_trans ((List.pairwise_cons.mp hd).1 x hx) hy

theorem take_append_take (n : Nat) (xs ys : List CDCEvent) :
    (xs ++ ys.take n).take n = (xs ++ ys).take n := by
  rw [List.take_append, List.take_append, List.take_take, Nat.min_eq_left (Nat.sub_le ..)]

/-- Adding events one by one puts the last of them first. -/
theorem foldl_addEvent (hpaused : state.isPaused = false) (events : List CDCEvent)
    (hb : state.events.length ≤ MAX_EVENTS) :
    (events.foldl EventState.addEvent state).events
      = (events.reverse ++ state.events).take MAX_EVENTS := by
  induction events generalizing state with
  | nil => simp [List.take_of_length_le hb]
  | cons e es ih =>
      have hadd : state.addEvent e = ⟨(e :: state.events).take MAX_EVENTS, false⟩ := by
        simp [EventState.addEvent, hpaused]
      rw [List.foldl_cons, hadd, ih rfl (List.length_take_le ..), take_append_take]
      simp

theorem foldl_addEvent_paused (hpaused : state.isPaused = true) (events : List CDCEvent) :
    events.foldl EventState.addEvent state = state := by
  induction events with
  | nil => rfl
  | cons e es ih => rw [List.foldl_cons, EventState.addEvent, if_pos hpaused, ih]

/-- **When adding events keeps the list newest first**: only one event at a time, and one
newer than the list. -/
theorem newestFirst_foldl_iff (h : NewestFirst state.events)
    (hd : events.Pairwise fun a b => b.id < a.id) (hb : events.length ≤ MAX_EVENTS) :
    NewestFirst (events.foldl EventState.addEvent state).events ↔
      state.isPaused = true ∨ events.length ≤ 1 ∧ ∀ e ∈ events, NewerThan state.events e := by
  cases hpaused : state.isPaused with
  | true => simp [foldl_addEvent_paused hpaused, h]
  | false =>
      rw [foldl_addEvent hpaused events h.bounded]
      simp only [Bool.false_eq_true, false_or]
      match events with
      | [] => simpa [List.take_of_length_le h.bounded] using h
      | [e] =>
          simp only [List.reverse_singleton, List.singleton_append, List.length_singleton,
            Nat.le_refl, true_and, List.mem_singleton, forall_eq]
          constructor
          · intro hnew x hx
            -- the head of the old list is the second of the new one
            obtain ⟨xs, hxs⟩ : ∃ xs, state.events = x :: xs := List.head?_eq_some_iff.mp hx
            have hdesc := hnew.descending
            rw [hxs, MAX_EVENTS, List.take_succ_cons, List.take_succ_cons] at hdesc
            exact (List.pairwise_cons.mp hdesc).1 x (List.mem_cons_self ..)
          · intro hnew
            refine newestFirst_of_descending (List.Pairwise.sublist (List.take_sublist ..) ?_)
              (List.length_take_le ..)
            exact List.pairwise_cons.mpr ⟨hnew.forall_mem h.descending, h.descending⟩
      | e :: e' :: es =>
          -- the first two of the response come out in the other order
          have hlt : e'.id < e.id := (List.pairwise_cons.mp hd).1 e' (List.mem_cons_self ..)
          refine ⟨fun hnew => absurd hnew.descending ?_, fun hone => absurd hone.1 (by simp)⟩
          rw [List.take_append, List.take_of_length_le (by rwa [List.length_reverse])]
          simp only [List.reverse_cons, List.append_assoc, List.cons_append, List.nil_append]
          intro hdesc
          have hgt := (List.pairwise_cons.mp (List.pairwise_append.mp hdesc).2.1).1 e
            (List.mem_cons_self ..)
          exact StreamId.lt_irrefl e.id (StreamId.lt_trans hgt hlt)

/-- `addEvents`, which nothing calls, would keep the order of a response. -/
theorem newestFirst_addEvents (h : NewestFirst state.events)
    (hd : events.Pairwise fun a b => b.id < a.id)
    (hnew : ∀ e ∈ events, NewerThan state.events e) :
    NewestFirst (state.addEvents events).events := by
  unfold EventState.addEvents
  split
  · exact h
  · refine newestFirst_of_descending (List.Pairwise.sublist (List.take_sublist ..) ?_)
      (List.length_take_le ..)
    rw [List.pairwise_append]
    exact ⟨hd, h.descending, fun e he x hx => (hnew e he).forall_mem h.descending x hx⟩

/-- The list never grows beyond its bound, whatever is added. -/
theorem length_foldl_addEvent_le (hb : state.events.length ≤ MAX_EVENTS) :
    (events.foldl EventState.addEvent state).events.length ≤ MAX_EVENTS := by
  cases hpaused : state.isPaused with
  | true => rwa [foldl_addEvent_paused hpaused]
  | false =>
      rw [foldl_addEvent hpaused events hb]
      exact List.length_take_le ..

end

/-! ## Runs

The order of the list is decided anew at each step, by what is added to it. The bound holds
without any condition. -/

/-- The step adds nothing to the list, or one event newer than all that is listed. -/
def KeepsOrder (s : Sys) (a : Action) : Prop :=
  s.store.isPaused = true ∨
    (handled s a).length ≤ 1 ∧ ∀ e ∈ handled s a, NewerThan s.store.events e

instance (s : Sys) (a : Action) : Decidable (KeepsOrder s a) :=
  inferInstanceAs (Decidable (_ ∨ _))

theorem newestFirst_nil : NewestFirst [] := ⟨List.nodup_nil, List.Pairwise.nil, Nat.zero_le _⟩

/-- One step. -/
theorem step_newestFirst_iff {s t : Sys} {a : Action} (h : NewestFirst s.store.events)
    (hs : step s a = some t) : NewestFirst t.store.events ↔ KeepsOrder s a := by
  have hstore := step_store hs
  have hfold := newestFirst_foldl_iff h (handled_descending s a).1 (handled_descending s a).2
  cases a with
  | setPaused paused =>
      rw [hstore]
      exact ⟨fun _ => Or.inr ⟨Nat.zero_le _, by simp [handled]⟩, fun _ => h⟩
  | clearEvents =>
      rw [hstore]
      exact ⟨fun _ => Or.inr ⟨Nat.zero_le _, by simp [handled]⟩, fun _ => newestFirst_nil⟩
  | _ =>
      rw [hstore]
      exact hfold

/-- **In a run the list is newest first and without repetitions all along exactly if every
step that adds to it adds one event newer than all that is listed.** -/
theorem newest_first_iff {log : EventLog} {tr : List (Sys × Action)} {s : Sys}
    (hrun : Run step (Sys.initial log) tr s) :
    ((∀ p ∈ tr, NewestFirst p.1.store.events) ∧ NewestFirst s.store.events) ↔
      StepsMeet KeepsOrder tr :=
  Run.exact (P := fun s => NewestFirst s.store.events) (J := fun _ => True)
    (fun _ _ _ h _ hs => step_newestFirst_iff h hs) (fun _ _ _ _ _ _ _ => trivial)
    newestFirst_nil trivial hrun

/-- In every run the list keeps to its bound. -/
theorem events_bounded {log : EventLog} {tr : List (Sys × Action)} {s : Sys}
    (hrun : Run step (Sys.initial log) tr s) : s.store.events.length ≤ MAX_EVENTS := by
  refine Run.invariant (C := fun _ _ => True) (I := fun s => s.store.events.length ≤ MAX_EVENTS)
    (fun s a t hb _ hs => ?_) (Nat.zero_le _) hrun (fun _ _ => trivial)
  have hstore := step_store hs
  cases a with
  | setPaused paused =>
      rw [hstore]
      exact hb
  | clearEvents =>
      rw [hstore]
      exact Nat.zero_le _
  | _ =>
      rw [hstore]
      exact length_foldl_addEvent_le hb

/-! ## Two runs -/

/-- The insertion of a row, in the stream under the id `ms-0`. -/
def inserted (ms : Nat) : CDCEvent :=
  ⟨⟨ms, 0⟩, some
    { lsn := "", commit_time := ms, table := "t", operation := "INSERT", old := .empty,
      new := .empty }⟩

def emptyLog : EventLog := ⟨[], List.Pairwise.nil⟩

/-- A page opened over a stream of two entries, and one opened over an empty stream that gets
its first entry before the server answers. -/
def openedLate : List Action :=
  [.publish (inserted 1), .publish (inserted 2), .connect, .onopen, .answer 0 false, .resolve 0]

def openedEarly : List Action :=
  [.connect, .group_create, .onopen, .publish (inserted 1), .onmessage 0, .answer 0 false,
    .resolve 0]

/-- The first lists the older entry first, the second lists its only entry twice. -/
theorem oldest_first_or_twice :
    (∃ tr s, Run step (Sys.initial emptyLog) tr s ∧
        StepsMeet (fun s _ => s.store.isPaused = false) tr ∧
        s.store.events = [inserted 1, inserted 2] ∧ ¬ NewestFirst s.store.events) ∧
      ∃ tr s, Run step (Sys.initial emptyLog) tr s ∧
        StepsMeet (fun s _ => s.store.isPaused = false) tr ∧
        s.store.events = [inserted 1, inserted 1] ∧ ¬ NewestFirst s.store.events := by
  constructor
  · exact exists_run_meeting_of_exec openedLate (by decide) (by decide)
  · exact exists_run_meeting_of_exec openedEarly (by decide) (by decide)

/-- Live events alone, after an empty response. -/
def openedFirst : List Action :=
  [.connect, .group_create, .onopen, .answer 0 false, .resolve 0, .publish (inserted 1),
    .onmessage 0, .publish (inserted 2), .onmessage 0]

theorem newest_first_iff_live :
    ∃ tr s, Run step (Sys.initial emptyLog) tr s ∧ s.store.events = [inserted 2, inserted 1] ∧
      (∀ p ∈ tr, NewestFirst p.1.store.events) ∧ NewestFirst s.store.events := by
  have hexec : ∃ tr s, Run step (Sys.initial emptyLog) tr s ∧ StepsMeet KeepsOrder tr ∧
      s.store.events = [inserted 2, inserted 1] :=
    exists_run_meeting_of_exec openedFirst (by decide) (by decide)
  obtain ⟨tr, s, hrun, hkeeps, hevents⟩ := hexec
  exact ⟨tr, s, hrun, hevents, (newest_first_iff hrun).mpr hkeeps⟩

end WalStream.Frontend

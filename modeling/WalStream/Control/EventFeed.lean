/-
`websocket_event_stream`: the server's side of the live event feed.

A connection has a consumer group of its own, created at the end of the stream, and reads it
ten entries at a time. Every entry is parsed, sent and acknowledged; a failure to parse or to
send is logged and the entry acknowledged all the same. A call to Redis that raises ends the
round: the rest of what was read has been taken from the group and is read no more. A client
that has gone is only noticed by the heartbeat, which is sent when a read finds nothing.

An entry is given by its place in the stream, counted from the first entry ever added; the
group's last delivered id is the number of entries up to it.
-/
import WalStream.Frontend.EventStream
import WalStream.Lib.Simulation

set_option autoImplicit false

namespace WalStream.Control

open Lib Frontend

/-! ## The connection

The consumer group is kept as the place it has delivered up to and the places delivered and not
acknowledged, which is all that `XREADGROUP` with `>` and `XACK` look at. A round of the loop is
taken apart at every call, so that a failure can come between any two of them. -/

/-- The consumer group `ws-{id}`: the place up to which entries have been delivered to it, and
those of them that are not acknowledged. -/
structure Group where
  /-- The entries up to its last delivered id. -/
  delivered : Nat
  /-- The entries read and not acknowledged, oldest first. -/
  pending : List Nat
deriving DecidableEq

/-- Where the coroutine is. It is suspended at every call to Redis and at every `send`. -/
inductive FeedPhase
  /-- Before `xgroup_create`. -/
  | creating
  /-- At the top of the loop, before `xreadgroup`. -/
  | reading
  /-- Before entry `i` is parsed and sent; the entries before `stop` have been read. -/
  | sending (i stop : Nat)
  /-- Before `xack` of entry `i`. -/
  | acking (i stop : Nat)
  /-- Nothing was read: before the heartbeat. -/
  | beating
  /-- In `asyncio.sleep(1)`. -/
  | sleeping
  /-- After the `finally` clause. -/
  | closed
deriving DecidableEq

structure Feed where
  log : EventLog
  /-- How many entries `MAXLEN` has taken off the old end of the stream. -/
  trimmed : Nat
  group : Option Group
  phase : FeedPhase
  /-- The client is there. -/
  client : Bool
  /-- What the client has received, oldest first. -/
  received : List EventStreamMessage

/-- How a call ends: a call that raises may have taken effect. For `XACK` and `XREADGROUP` that
makes the difference between an entry that is read again and one that is not. -/
inductive CallEnd
  | ok
  | raised (done : Bool)
deriving DecidableEq

/-- How the heartbeat ends. -/
inductive BeatEnd
  | sent
  /-- `WebSocketDisconnect` -/
  | disconnect
  | raised
deriving DecidableEq

inductive FeedAction
  /-- The ingestor adds an entry. -/
  | publish (entry : CDCEvent)
  /-- `MAXLEN` takes entries off. -/
  | trim (n : Nat)
  /-- The client goes away. -/
  | leave
  /-- `xgroup_create`; `left` is a group of that name that an earlier connection has left. -/
  | create (left : Option Group)
  | create_fails
  | read (o : CallEnd)
  /-- `send_json`; the message arrives or it does not, and nobody looks at an exception. -/
  | send (arrives : Bool)
  | ack (o : CallEnd)
  | beat (o : BeatEnd)
  | wake
  /-- The task is cancelled. -/
  | cancel
  /-- `xgroup_destroy`, in the `finally` clause; an exception is ignored. -/
  | destroy (done : Bool)

def Feed.initial (log : EventLog) : Feed :=
  { log := log,
    trimmed := 0,
    group := none,
    phase := .creating,
    client := true,
    received := [] }

/-- The entry at a place of the stream. -/
def Feed.entry? (s : Feed) (i : Nat) : Option CDCEvent := s.log.entries.reverse[i]?

def heartbeat : EventStreamMessage := ⟨.heartbeat, none⟩

/-- `XREADGROUP … COUNT 10` with `>` delivers the next entries that are still there: from
`first` to before `stop`. -/
def Feed.first (s : Feed) (g : Group) : Nat := max g.delivered s.trimmed

def Feed.stop (s : Feed) (g : Group) : Nat := min (s.first g + 10) s.log.entries.length

/-- The message for an entry, if it could be parsed. -/
def Feed.message (s : Feed) (i : Nat) : List EventStreamMessage :=
  ((s.entry? i).bind stream_message).toList

/-- The messages that reach the client in a step. -/
def Feed.arriving (s : Feed) : FeedAction → List EventStreamMessage
  | .send arrives =>
      match s.phase with
      | .sending i _ => if arrives && s.client then s.message i else []
      | _ => []
  | .beat .sent => [heartbeat]
  | _ => []

def Feed.step (s : Feed) : FeedAction → Option Feed
  | .publish entry => (s.log.xadd entry).map fun log => { s with log := log }
  | .trim n => if n ≤ s.log.entries.length then some { s with trimmed := max s.trimmed n } else none
  | .leave => some { s with client := false }
  | .create left =>
      match s.phase with
      | .creating =>
          match left with
          | none => some { s with group := some ⟨s.log.entries.length, []⟩, phase := .reading }
          -- `BUSYGROUP`: the old group is used as it is
          | some g =>
              if g.delivered ≤ s.log.entries.length then
                some { s with group := some g, phase := .reading }
              else none
      | _ => none
  | .create_fails =>
      match s.phase with
      | .creating => some { s with phase := .closed }
      | _ => none
  | .read o =>
      match s.phase, s.group with
      | .reading, some g =>
          let taken : Group :=
            ⟨s.stop g, g.pending ++ List.range' (s.first g) (s.stop g - s.first g)⟩
          if s.first g < s.stop g then
            match o with
            | .ok => some { s with group := some taken, phase := .sending (s.first g) (s.stop g) }
            | .raised done =>
                some { s with group := some (if done then taken else g), phase := .sleeping }
          else
            match o with
            | .ok => some { s with phase := .beating }
            | .raised _ => some { s with phase := .sleeping }
      | _, _ => none
  | .send arrives =>
      match s.phase with
      | .sending i stop =>
          some { s with
            phase := .acking i stop, received := s.received ++ s.arriving (.send arrives) }
      | _ => none
  | .ack o =>
      match s.phase, s.group with
      | .acking i stop, some g =>
          let acked : Group := { g with pending := g.pending.erase i }
          match o with
          | .ok =>
              some { s with
                group := some acked,
                phase := if i + 1 < stop then .sending (i + 1) stop else .reading }
          -- the exception leaves both loops over the messages
          | .raised done =>
              some { s with group := some (if done then acked else g), phase := .sleeping }
      | _, _ => none
  | .beat o =>
      match s.phase with
      | .beating =>
          match o with
          | .sent =>
              if s.client then
                some { s with phase := .reading, received := s.received ++ s.arriving (.beat o) }
              else none
          | .disconnect => some { s with phase := .closed }
          | .raised => some { s with phase := .sleeping }
      | _ => none
  | .wake =>
      match s.phase with
      | .sleeping => some { s with phase := .reading }
      | _ => none
  | .cancel =>
      match s.phase with
      | .closed => none
      | _ => some { s with phase := .closed }
  | .destroy done =>
      match s.phase with
      | .closed => some { s with group := if done then none else s.group }
      | _ => none

/-! ## What a step can be

The loop hands out places of the stream and never goes back: what it may still come to begins at
`front`, and this is never lowered. The invariant only says how the places lie to each other. -/

inductive Feed.Took (s : Feed) : FeedAction → Feed → Prop
  | publish (entry : CDCEvent) (log : EventLog) (hlog : s.log.xadd entry = some log) :
      Took s (.publish entry) { s with log := log }
  | trim (n : Nat) (hn : n ≤ s.log.entries.length) :
      Took s (.trim n) { s with trimmed := max s.trimmed n }
  | leave : Took s .leave { s with client := false }
  | create (hph : s.phase = .creating) :
      Took s (.create none)
        { s with group := some ⟨s.log.entries.length, []⟩, phase := .reading }
  | busy (g : Group) (hph : s.phase = .creating) (hg : g.delivered ≤ s.log.entries.length) :
      Took s (.create (some g)) { s with group := some g, phase := .reading }
  | create_fails (hph : s.phase = .creating) : Took s .create_fails { s with phase := .closed }
  | read (g : Group) (hph : s.phase = .reading) (hg : s.group = some g)
      (hlt : s.first g < s.stop g) :
      Took s (.read .ok)
        { s with
          group := some
            ⟨s.stop g, g.pending ++ List.range' (s.first g) (s.stop g - s.first g)⟩,
          phase := .sending (s.first g) (s.stop g) }
  | read_raised (o : CallEnd) (g g' : Group) (hph : s.phase = .reading) (hg : s.group = some g)
      (ho : o ≠ .ok) (hle : g.delivered ≤ g'.delivered)
      (hlen : g.delivered ≤ s.log.entries.length → g'.delivered ≤ s.log.entries.length) :
      Took s (.read o) { s with group := some g', phase := .sleeping }
  | read_nothing (g : Group) (hph : s.phase = .reading) (hg : s.group = some g)
      (hall : s.log.entries.length ≤ s.first g) :
      Took s (.read .ok) { s with phase := .beating }
  | send (arrives : Bool) (i stop : Nat) (hph : s.phase = .sending i stop) :
      Took s (.send arrives)
        { s with
          phase := .acking i stop,
          received := s.received ++ if arrives && s.client then s.message i else [] }
  | acked (g : Group) (i stop : Nat) (hph : s.phase = .acking i stop) (hg : s.group = some g) :
      Took s (.ack .ok)
        { s with
          group := some { g with pending := g.pending.erase i },
          phase := if i + 1 < stop then .sending (i + 1) stop else .reading }
  | ack_raised (o : CallEnd) (g g' : Group) (i stop : Nat) (hph : s.phase = .acking i stop)
      (hg : s.group = some g) (ho : o ≠ .ok) (hdelivered : g'.delivered = g.delivered) :
      Took s (.ack o) { s with group := some g', phase := .sleeping }
  | beat (hph : s.phase = .beating) (hclient : s.client = true) :
      Took s (.beat .sent) { s with phase := .reading, received := s.received ++ [heartbeat] }
  | gone (hph : s.phase = .beating) : Took s (.beat .disconnect) { s with phase := .closed }
  | beat_raised (hph : s.phase = .beating) : Took s (.beat .raised) { s with phase := .sleeping }
  | wake (hph : s.phase = .sleeping) : Took s .wake { s with phase := .reading }
  | cancel : Took s .cancel { s with phase := .closed }
  | destroy (done : Bool) (hph : s.phase = .closed) :
      Took s (.destroy done) { s with group := if done then none else s.group }

section

variable {s t : Feed} {a : FeedAction}

/-- **The inversion of `step`.** -/
theorem Feed.step_took (h : s.step a = some t) : s.Took a t := by
  cases a with
  | publish entry =>
      obtain ⟨log, hlog, rfl⟩ := Option.map_eq_some_iff.mp h
      exact .publish entry log hlog
  | trim n =>
      simp only [Feed.step] at h
      split at h
      · rename_i hn
        cases h
        exact .trim n hn
      · cases h
  | leave => cases h; exact .leave
  | create left =>
      simp only [Feed.step] at h
      split at h
      · rename_i hph
        split at h
        · cases h
          exact .create hph
        · rename_i g
          split at h
          · rename_i hg
            cases h
            exact .busy g hph hg
          · cases h
      · cases h
  | create_fails =>
      simp only [Feed.step] at h
      split at h
      · rename_i hph
        cases h
        exact .create_fails hph
      · cases h
  | read o =>
      simp only [Feed.step] at h
      split at h
      · rename_i g hph hg
        by_cases hlt : s.first g < s.stop g
        · rw [if_pos hlt] at h
          cases o with
          | ok =>
              cases h
              exact .read g hph hg hlt
          | raised done =>
              cases h
              refine .read_raised _ g _ hph hg CallEnd.noConfusion ?_ ?_
              · split
                · exact Nat.le_of_lt (Nat.lt_of_le_of_lt (Nat.le_max_left ..) hlt)
                · exact Nat.le_refl _
              · intro hlen
                split
                · exact Nat.min_le_right _ _
                · exact hlen
        · rw [if_neg hlt] at h
          cases o with
          | ok =>
              cases h
              refine .read_nothing g hph hg ?_
              simp only [Feed.stop] at hlt
              omega
          | raised done =>
              cases h
              have htook : s.Took (.read (.raised done)) { s with group := some g, phase := .sleeping } :=
                .read_raised _ g g hph hg CallEnd.noConfusion (Nat.le_refl _) id
              rwa [← hg] at htook
      · cases h
  | send arrives =>
      simp only [Feed.step] at h
      split at h
      · rename_i i stop hph
        cases h
        simp only [Feed.arriving, hph]
        exact .send arrives i stop hph
      · cases h
  | ack o =>
      simp only [Feed.step] at h
      split at h
      · rename_i i stop g hph hg
        cases o with
        | ok =>
            cases h
            exact .acked g i stop hph hg
        | raised done =>
            cases h
            refine .ack_raised _ g _ i stop hph hg CallEnd.noConfusion ?_
            split <;> rfl
      · cases h
  | beat o =>
      simp only [Feed.step] at h
      split at h
      · rename_i hph
        cases o with
        | sent =>
            dsimp only at h
            split at h
            · rename_i hclient
              cases h
              exact .beat hph hclient
            · cases h
        | disconnect => cases h; exact .gone hph
        | raised => cases h; exact .beat_raised hph
      · cases h
  | wake =>
      simp only [Feed.step] at h
      split at h
      · rename_i hph
        cases h
        exact .wake hph
      · cases h
  | cancel =>
      simp only [Feed.step] at h
      split at h
      · cases h
      · cases h
        exact .cancel
  | destroy done =>
      simp only [Feed.step] at h
      split at h
      · rename_i hph
        cases h
        exact .destroy done hph
      · cases h

/-- The loop is running: the group is there. -/
def FeedPhase.running : FeedPhase → Bool
  | .creating => false
  | .closed => false
  | _ => true

/-- The entry in hand, and the end of what has been read. What lies between the two has been
taken from the group, and only this connection can still send it. -/
def FeedPhase.batch? : FeedPhase → Option (Nat × Nat)
  | .sending i stop => some (i, stop)
  | .acking i stop => some (i, stop)
  | _ => none

/-- The first entry that the loop may still come to: the one in hand, or what the group will
deliver next. -/
def Feed.front (s : Feed) (g : Group) : Nat :=
  match s.phase with
  | .sending i _ => i
  | .acking i _ => i + 1
  | _ => g.delivered

/-- The places are within the stream, and what has been read and not handled is what the group
has delivered last. -/
structure Feed.Inv (s : Feed) : Prop where
  trimmed : s.trimmed ≤ s.log.entries.length
  delivered : ∀ g, s.group = some g → g.delivered ≤ s.log.entries.length
  running : s.phase.running = true → ∃ g, s.group = some g
  batch : ∀ i stop g, s.phase.batch? = some (i, stop) → s.group = some g →
    i < stop ∧ stop = g.delivered

/-- A new entry comes at one end of the log. -/
theorem length_of_xadd {log log' : EventLog} {entry : CDCEvent} (h : log.xadd entry = some log') :
    log'.entries = entry :: log.entries := by
  unfold EventLog.xadd at h
  split at h
  · cases h
    rfl
  · cases h

/-- **One step** keeps the places in order. Entries that are trimmed only take places away from
the front. -/
theorem Feed.Inv.step (h : s.Inv) (hs : s.step a = some t) : t.Inv := by
  cases step_took hs with
  | publish entry log hlog =>
      have hlen : log.entries.length = s.log.entries.length + 1 := by
        rw [length_of_xadd hlog, List.length_cons]
      refine ⟨?_, fun g hg => ?_, h.running, h.batch⟩
      · have hle := h.trimmed
        dsimp only
        omega
      · have hle := h.delivered g hg
        dsimp only
        omega
  -- trimming moves the first entry, and the places that were given out stay
  | trim n hn =>
      exact ⟨Nat.max_le.mpr ⟨h.trimmed, hn⟩, h.delivered, h.running, h.batch⟩
  | leave => exact ⟨h.trimmed, h.delivered, h.running, h.batch⟩
  | create hph =>
      refine ⟨h.trimmed, fun g hg => ?_, fun _ => ⟨_, rfl⟩, fun _ _ _ h' => by cases h'⟩
      cases hg
      exact Nat.le_refl _
  | busy g hph hg =>
      refine ⟨h.trimmed, fun g' hg' => ?_, fun _ => ⟨_, rfl⟩, fun _ _ _ h' => by cases h'⟩
      cases hg'
      exact hg
  -- what has been read ends where the group now stands
  | read g hph hg hlt =>
      refine ⟨h.trimmed, fun g' hg' => ?_, fun _ => ⟨_, rfl⟩, fun i stop g' hbatch hg' => ?_⟩
      · cases hg'
        exact Nat.min_le_right _ _
      · cases hg'
        cases hbatch
        exact ⟨hlt, rfl⟩
  | read_raised o g g' hph hg ho hle hlen =>
      refine ⟨h.trimmed, fun g'' hg'' => ?_, fun _ => ⟨_, rfl⟩, fun _ _ _ h' => by cases h'⟩
      cases hg''
      exact hlen (h.delivered g hg)
  | read_nothing g hph hg hall =>
      exact ⟨h.trimmed, h.delivered, fun _ => ⟨g, hg⟩, fun _ _ _ h' => by cases h'⟩
  | send arrives i stop hph =>
      refine ⟨h.trimmed, h.delivered, fun _ => h.running (by rw [hph]; rfl),
        fun i' stop' g hbatch hg => ?_⟩
      cases hbatch
      exact h.batch i stop g (by rw [hph]; rfl) hg
  | acked g i stop hph hg =>
      obtain ⟨hlt, hstop⟩ := h.batch i stop g (by rw [hph]; rfl) hg
      refine ⟨h.trimmed, fun g' hg' => ?_, fun _ => ⟨_, rfl⟩, fun i' stop' g' hbatch hg' => ?_⟩
      · cases hg'
        exact h.delivered g hg
      · cases hg'
        dsimp only at hbatch
        -- either the next entry of the batch is in hand, or the batch is done
        split at hbatch
        · rename_i hmore
          cases hbatch
          exact ⟨hmore, hstop⟩
        · cases hbatch
  | ack_raised o g g' i stop hph hg ho hdelivered =>
      refine ⟨h.trimmed, fun g'' hg'' => ?_, fun _ => ⟨_, rfl⟩, fun _ _ _ h' => by cases h'⟩
      cases hg''
      rw [hdelivered]
      exact h.delivered g hg
  | beat hph hclient =>
      exact ⟨h.trimmed, h.delivered, fun _ => h.running (by rw [hph]; rfl),
        fun _ _ _ h' => by cases h'⟩
  | beat_raised hph =>
      exact ⟨h.trimmed, h.delivered, fun _ => h.running (by rw [hph]; rfl),
        fun _ _ _ h' => by cases h'⟩
  | wake hph =>
      exact ⟨h.trimmed, h.delivered, fun _ => h.running (by rw [hph]; rfl),
        fun _ _ _ h' => by cases h'⟩
  | create_fails hph =>
      exact ⟨h.trimmed, h.delivered, (fun h' => by cases h'), fun _ _ _ h' => by cases h'⟩
  | gone hph => exact ⟨h.trimmed, h.delivered, (fun h' => by cases h'), fun _ _ _ h' => by cases h'⟩
  | cancel => exact ⟨h.trimmed, h.delivered, (fun h' => by cases h'), fun _ _ _ h' => by cases h'⟩
  | destroy done hph =>
      refine ⟨h.trimmed, fun g hg => ?_, fun hrun => ?_, fun i stop g hbatch => ?_⟩
      · dsimp only at hg
        split at hg
        · cases hg
        · exact h.delivered g hg
      · dsimp only at hrun
        rw [hph] at hrun
        cases hrun
      · dsimp only at hbatch
        rw [hph] at hbatch
        cases hbatch

/-- Before the group is there no place has been given out. -/
theorem Feed.inv_initial (log : EventLog) : (Feed.initial log).Inv :=
  ⟨Nat.zero_le _, (fun _ h' => by cases h'), (fun h' => by cases h'), fun _ _ _ h' => by cases h'⟩

/-- What a step adds to the messages received. -/
theorem Feed.received_step (hs : s.step a = some t) : t.received = s.received ++ s.arriving a := by
  cases step_took hs with
  | send arrives i stop hph => simp only [Feed.arriving, hph]
  | _ => simp [Feed.arriving]

end

/-! ## What the frontend assumes of the server

The model of the frontend has a server that sends an event of the log, or does not, and never
one of before the place it has reached. The feed is more than that: it has a group, a batch and
acknowledgements. `Matches` forgets these, and every step of the feed is then a step of the
frontend's server or none. -/

/-- The feed, and the frontend's view of the server: the messages of the connection come from
the place the frontend's group is at, or from later ones. Later ones, because what a raised call
leaves unread is skipped, which the frontend's model allows as a loss. -/
structure Matches (s : Feed) (f : Sys) : Prop where
  inv : s.Inv
  log : f.log = s.log
  status : f.status = .connected
  creating : s.phase = .creating → f.group = none
  running : s.phase.running = true → ∀ g, s.group = some g → ∃ n, f.group = some n ∧ n ≤ s.front g

/-- The group is created anew: no connection before has left one of the name. -/
def FreshGroup (_ : Feed) : FeedAction → Prop
  | .create (some _) => False
  | _ => True

/-- The events that the feed brings. -/
def feed_events (s : Feed) (a : FeedAction) : List CDCEvent :=
  (s.arriving a).flatMap handleMessage

/-- The events that the frontend takes from the WebSocket. -/
def socket_events (f : Sys) : Action → List CDCEvent
  | .onmessage lost => handled f (.onmessage lost)
  | _ => []

section

variable {s t : Feed} {f : Sys}

/-- Steps that bring nothing and do not lead back. Most of what goes wrong on the server is of
this kind to the client. -/
theorem Matches.still (h : Matches s f) (hinv : t.Inv) (hlog : t.log = s.log)
    (hcreating : t.phase = .creating → s.phase = .creating)
    (hrunning : t.phase.running = true → ∀ g, t.group = some g →
      s.phase.running = true ∧ ∃ g', s.group = some g' ∧ s.front g' ≤ t.front g) :
    ∃ tr f', Run Frontend.step f tr f' ∧ shown socket_events tr = [] ∧ Matches t f' := by
  refine ⟨[], f, Run.nil, rfl, hinv, h.log.trans hlog.symm, h.status,
    fun hph => h.creating (hcreating hph), fun hrun g hg => ?_⟩
  obtain ⟨hrun', g', hg', hle⟩ := hrunning hrun g hg
  obtain ⟨n, hn, hn'⟩ := h.running hrun' g' hg'
  exact ⟨n, hn, Nat.le_trans hn' hle⟩

/-- A message that arrives. -/
theorem Matches.arrives (h : Matches s f) {i stop : Nat} (hph : s.phase = .sending i stop)
    (hinv : Feed.Inv
      { s with phase := .acking i stop, received := s.received ++ s.message i }) :
    ∃ tr f', Run Frontend.step f tr f' ∧
      shown socket_events tr = (s.message i).flatMap handleMessage ∧
      Matches { s with phase := .acking i stop, received := s.received ++ s.message i } f' := by
  obtain ⟨g, hg⟩ := h.inv.running (by rw [hph]; rfl)
  obtain ⟨hlt, hstop⟩ := h.inv.batch i stop g (by rw [hph]; rfl) hg
  obtain ⟨n, hn, hle⟩ := h.running (by rw [hph]; rfl) g hg
  have hlen := h.inv.delivered g hg
  simp only [Feed.front, hph] at hle
  -- the place, counted from where the frontend's group is
  have hentry : f.entry? (i - n) = s.entry? i := by
    simp only [Sys.entry?, hn, Option.bind_some, h.log, Feed.entry?]
    rw [Nat.add_sub_cancel' hle]
  have hsome : (s.entry? i).isSome = true := by
    simp only [Feed.entry?, isSome_getElem?, List.length_reverse]
    omega
  have hstep : Frontend.step f (.onmessage (i - n)) = some { f with
      group := f.group.map (· + (i - n) + 1),
      store := (handled f (.onmessage (i - n))).foldl EventState.addEvent f.store } := by
    simp only [Frontend.step, h.status, hentry, hsome, and_self, if_true]
  refine ⟨_, _, Run.cons Run.nil hstep, ?_, hinv, h.log, h.status, (fun h' => by cases h'),
    fun _ g' hg' => ?_⟩
  · simp only [shown_cons, shown_nil, List.nil_append, socket_events, handled, hentry, Feed.message]
    cases (s.entry? i).bind stream_message with
    | none => rfl
    | some message => simp
  · refine ⟨i + 1, ?_, Nat.le_refl _⟩
    simp only [hn, Option.map_some, Option.some.injEq]
    omega

/-- **The server is what the frontend assumes.** A step that brings a message is matched by the
arrival of one at the client, which counts the entries since the last message as lost. All other
steps but the creation of the group and a new entry are matched by none. -/
theorem matches_simulates :
    Simulates Feed.step Frontend.step feed_events socket_events FreshGroup Matches := by
  intro s a t f h hfresh hs
  have hinv := h.inv.step hs
  cases Feed.step_took hs with
  -- the two logs are one
  | publish entry log hlog =>
      have hstep : Frontend.step f (.publish entry) = some { f with log := log } := by
        simp only [Frontend.step, h.log, hlog, Option.map_some]
      exact ⟨_, _, Run.cons Run.nil hstep, rfl, hinv, rfl, h.status, h.creating, h.running⟩
  | trim n hn => exact h.still hinv rfl id fun hrun g hg => ⟨hrun, g, hg, Nat.le_refl _⟩
  | leave => exact h.still hinv rfl id fun hrun g hg => ⟨hrun, g, hg, Nat.le_refl _⟩
  -- the frontend's group begins where the feed's does, at the end of the log
  | create hph =>
      have hstep : Frontend.step f .group_create
          = some { f with group := some f.log.entries.length } := by
        simp only [Frontend.step, h.status, h.creating hph]
        rfl
      refine ⟨_, _, Run.cons Run.nil hstep, rfl, hinv, h.log, h.status, (fun h' => by cases h'),
        fun _ g hg => ?_⟩
      cases hg
      exact ⟨_, rfl, by rw [h.log]; exact Nat.le_refl _⟩
  -- a group that is there already would be read from where it was left
  | busy g hph hg => exact hfresh.elim
  | create_fails hph => exact h.still hinv rfl (fun h' => by cases h') fun h' => by cases h'
  | read g hph hg hlt =>
      refine h.still hinv rfl (fun h' => by cases h') fun _ g' hg' => ⟨by rw [hph]; rfl, g, hg, ?_⟩
      simp only [Feed.front, hph]
      exact Nat.le_max_left ..
  | read_raised o g g' hph hg ho hle hlen =>
      refine h.still hinv rfl (fun h' => by cases h')
        fun _ g'' hg'' => ⟨by rw [hph]; rfl, g, hg, ?_⟩
      cases hg''
      simp only [Feed.front, hph]
      exact hle
  | read_nothing g hph hg hall =>
      refine h.still hinv rfl (fun h' => by cases h')
        fun _ g' hg' => ⟨by rw [hph]; rfl, g', hg', ?_⟩
      simp only [Feed.front, hph]
      exact Nat.le_refl _
  -- the one step that can bring a message; if it does not, the entry is behind the front all
  -- the same
  | send arrives i stop hph =>
      by_cases harrives : (arrives && s.client) = true
      · simp only [feed_events, Feed.arriving, hph, harrives, if_true] at hinv ⊢
        exact h.arrives hph hinv
      · simp only [feed_events, Feed.arriving, hph, harrives] at hinv ⊢
        refine h.still hinv rfl (fun h' => by cases h') fun _ g hg => ⟨by rw [hph]; rfl, g, hg, ?_⟩
        simp only [Feed.front, hph]
        exact Nat.le_succ _
  | acked g i stop hph hg =>
      obtain ⟨hlt, hstop⟩ := h.inv.batch i stop g (by rw [hph]; rfl) hg
      refine h.still hinv rfl (fun hph' => ?_) fun _ g' hg' => ⟨by rw [hph]; rfl, g, hg, ?_⟩
      · dsimp only at hph'
        split at hph' <;> cases hph'
      · -- whether it was the last of the batch decides what the front is, and not that it moves
        -- on
        cases hg'
        by_cases hmore : i + 1 < stop
        · simp only [Feed.front, hph, if_pos hmore]
          exact Nat.le_refl _
        · simp only [Feed.front, hph, if_neg hmore]
          omega
  -- the rest of the batch is lost: the front is where the group goes on
  | ack_raised o g g' i stop hph hg ho hdelivered =>
      obtain ⟨hlt, hstop⟩ := h.inv.batch i stop g (by rw [hph]; rfl) hg
      refine h.still hinv rfl (fun h' => by cases h')
        fun _ g'' hg'' => ⟨by rw [hph]; rfl, g, hg, ?_⟩
      cases hg''
      simp only [Feed.front, hph]
      omega
  | beat hph hclient =>
      refine h.still hinv rfl (fun h' => by cases h') fun _ g hg => ⟨by rw [hph]; rfl, g, hg, ?_⟩
      simp only [Feed.front, hph]
      exact Nat.le_refl _
  | gone hph => exact h.still hinv rfl (fun h' => by cases h') fun h' => by cases h'
  | beat_raised hph =>
      refine h.still hinv rfl (fun h' => by cases h') fun _ g hg => ⟨by rw [hph]; rfl, g, hg, ?_⟩
      simp only [Feed.front, hph]
      exact Nat.le_refl _
  | wake hph =>
      refine h.still hinv rfl (fun h' => by cases h') fun _ g hg => ⟨by rw [hph]; rfl, g, hg, ?_⟩
      simp only [Feed.front, hph]
      exact Nat.le_refl _
  | cancel => exact h.still hinv rfl (fun h' => by cases h') fun h' => by cases h'
  | destroy done hph =>
      refine h.still hinv rfl (fun hph' => ?_) fun hrun => ?_
      · dsimp only at hph'
        rw [hph] at hph'
        cases hph'
      · dsimp only at hrun
        rw [hph] at hrun
        cases hrun

/-- The events received are those shown along the run. -/
theorem shown_feed_events {log : EventLog} {tr : List (Feed × FeedAction)}
    (hrun : Run Feed.step (Feed.initial log) tr s) :
    shown feed_events tr = s.received.flatMap handleMessage := by
  induction hrun with
  | nil => rfl
  | cons _ hs ih => rw [shown_cons, ih, Feed.received_step hs, List.flatMap_append, feed_events]

/-- **The feed refines the server of the frontend's model.** Whatever raises, is trimmed or
goes away, what a client is sent over a connection whose group is its own is what some run of
the frontend's model has it handle, over the same stream. -/
theorem feed_refines {log : EventLog} {tr : List (Feed × FeedAction)}
    (hrun : Run Feed.step (Feed.initial log) tr s) (hfresh : StepsMeet FreshGroup tr) :
    ∃ tr' f, Run Frontend.step (Sys.initial log) tr' f ∧ f.log = s.log ∧
      shown socket_events tr' = s.received.flatMap handleMessage := by
  let connecting : Sys := { Sys.initial log with status := .connecting }
  have hconnect : Frontend.step (Sys.initial log) .connect = some connecting := rfl
  have hopen : Frontend.step connecting .onopen
      = some { connecting with status := .connected, requests := [none] } := rfl
  have hstart : Matches (Feed.initial log)
      { connecting with status := .connected, requests := [none] } :=
    ⟨Feed.inv_initial log, rfl, rfl, fun _ => rfl, fun h' => by cases h'⟩
  obtain ⟨tr', f, hrun', hshown, hmatches⟩ := matches_simulates.run hstart hrun hfresh
  refine ⟨_, f, Run.append (Run.cons (Run.cons Run.nil hconnect) hopen) hrun', hmatches.log, ?_⟩
  rw [shown_append, hshown, shown_feed_events hrun]
  rfl

/-- The acknowledgement of the first of two entries raises: the second has been read and is not
sent. -/
def interrupted_feed : List FeedAction :=
  [.create none, .publish (inserted 1), .publish (inserted 2), .read .ok, .send true,
    .ack (.raised false), .wake, .read .ok, .beat .sent, .publish (inserted 3), .read .ok,
    .send true]

/-- The client is sent the first of the two entries and the one after them, and never the
second. -/
theorem feed_refines_interrupted :
    ∃ tr s tr' f, Run Feed.step (Feed.initial emptyLog) tr s ∧ s.log.entries.length = 3 ∧
      Run Frontend.step (Sys.initial emptyLog) tr' f ∧ f.log = s.log ∧
      shown socket_events tr' = [inserted 1, inserted 3] := by
  obtain ⟨s, hs, hlen, hreceived⟩ : ∃ s, exec Feed.step (Feed.initial emptyLog) interrupted_feed
      = some s ∧ s.log.entries.length = 3 ∧
      s.received.flatMap handleMessage = [inserted 1, inserted 3] :=
    ⟨_, rfl, by decide, by decide⟩
  have hfresh : ∀ a ∈ interrupted_feed, ∀ s, FreshGroup s a := by
    simp [interrupted_feed, FreshGroup]
  obtain ⟨tr', f, hrun', hlog, hshown⟩ :=
    feed_refines (run_trace hs) fun p hp => hfresh _ (mem_of_mem_trace hp) p.1
  exact ⟨_, s, tr', f, run_trace hs, hlen, hrun', hlog, hshown.trans hreceived⟩

end

/-! ## A connection without trouble

The refinement says what a client cannot see; this part says what it is bound to see. An entry
is passed over in three ways, by a call that raises, by a client that is gone and by trimming,
and `Smooth` leaves out exactly these. -/

/-- Nothing raises, the client is there, and no entry is trimmed before it is read. Each of the
three is needed: the code answers all of them by leaving entries out. -/
def Smooth (s : Feed) : FeedAction → Prop
  | .publish _ => True
  | .trim n => ∀ g, s.group = some g → n ≤ g.delivered
  | .read o => o = .ok
  | .send arrives => arrives = true
  | .ack o => o = .ok
  | .beat o => o = .sent
  | _ => False

/-- The entries read and not acknowledged begin with the one in hand. -/
def Feed.unacked (s : Feed) (g : Group) : Nat :=
  match s.phase with
  | .sending i _ => i
  | .acking i _ => i
  | _ => g.delivered

/-- All that has been handled since entry `first` has been received, in its order. It is stated
of the messages and not of the entries, since an entry that cannot be parsed is handled and
brings none. -/
structure Complete (first : Nat) (before : List CDCEvent) (s : Feed) : Prop where
  inv : s.Inv
  client : s.client = true
  running : s.phase.running = true
  caught : ∀ g, s.group = some g → s.trimmed ≤ g.delivered ∧ first ≤ s.front g ∧
    g.pending = List.range' (s.unacked g) (g.delivered - s.unacked g) ∧
    s.received.flatMap handleMessage
      = before ++ ((s.log.entries.reverse.take (s.front g)).drop first).filter (·.event.isSome)

section

variable {s t : Feed} {a : FeedAction} {first : Nat} {before : List CDCEvent}

/-- What the loop may still come to is not before what is in hand. -/
theorem Feed.Inv.front_le (h : s.Inv) {g : Group} (hg : s.group = some g) :
    s.front g ≤ g.delivered := by
  unfold Feed.front
  split
  · rename_i i stop hph
    have hbatch := h.batch i stop g (by rw [hph]; rfl) hg
    omega
  · rename_i i stop hph
    have hbatch := h.batch i stop g (by rw [hph]; rfl) hg
    omega
  · exact Nat.le_refl _

/-- A message brings its entry, if that could be parsed. -/
theorem message_events {i : Nat} {entry : CDCEvent} (hentry : s.entry? i = some entry) :
    (s.message i).flatMap handleMessage = [entry].filter (·.event.isSome) := by
  cases hevent : entry.event with
  | none => simp [Feed.message, hentry, stream_message, hevent]
  | some record => simp [Feed.message, hentry, stream_message, hevent, handleMessage]

/-- **One step** of a connection without trouble. Only the `send` and the failure to parse bring
the loop past an entry, the one with its message and the other without. -/
theorem Complete.step (h : Complete first before s) (hsmooth : Smooth s a)
    (hs : s.step a = some t) : Complete first before t := by
  have hinv := h.inv.step hs
  cases Feed.step_took hs with
  | publish entry log hlog =>
      refine ⟨hinv, h.client, h.running, fun g hg => ?_⟩
      obtain ⟨htrimmed, hfirst, hpending, hreceived⟩ := h.caught g hg
      refine ⟨htrimmed, hfirst, hpending, hreceived.trans ?_⟩
      have hlen : s.front g ≤ s.log.entries.reverse.length := by
        rw [List.length_reverse]
        exact Nat.le_trans (h.inv.front_le hg) (h.inv.delivered g hg)
      have htake : log.entries.reverse.take (s.front g) = s.log.entries.reverse.take (s.front g) := by
        rw [length_of_xadd hlog, List.reverse_cons, List.take_append_of_le_length hlen]
      exact congrArg (fun l => before ++ (l.drop first).filter (·.event.isSome)) htake.symm
  | trim n hn =>
      refine ⟨hinv, h.client, h.running, fun g hg => ?_⟩
      obtain ⟨htrimmed, hrest⟩ := h.caught g hg
      exact ⟨Nat.max_le.mpr ⟨htrimmed, hsmooth g hg⟩, hrest⟩
  | read g hph hg hlt =>
      obtain ⟨htrimmed, hfirst, hpending, hreceived⟩ := h.caught g hg
      have hstart : s.first g = g.delivered := Nat.max_eq_left htrimmed
      simp only [Feed.front, Feed.unacked, hph, Nat.sub_self] at hfirst hpending hreceived
      refine ⟨hinv, h.client, rfl, fun g' hg' => ?_⟩
      cases hg'
      refine ⟨?_, ?_, ?_, ?_⟩
      · dsimp only
        omega
      · simp only [Feed.front, hstart]
        exact hfirst
      · simp only [Feed.unacked, hpending]
        rfl
      · simp only [Feed.front, hstart]
        exact hreceived
  | read_raised o g g' hph hg ho hle hlen => exact absurd hsmooth ho
  | read_nothing g hph hg hall =>
      refine ⟨hinv, h.client, rfl, fun g' hg' => ?_⟩
      have hcaught := h.caught g' hg'
      simp only [Feed.front, Feed.unacked, hph] at hcaught
      exact hcaught
  | send arrives i stop hph =>
      obtain rfl : arrives = true := hsmooth
      obtain ⟨g, hg⟩ := h.inv.running h.running
      obtain ⟨hlt, hstop⟩ := h.inv.batch i stop g (by rw [hph]; rfl) hg
      have hlen := h.inv.delivered g hg
      refine ⟨hinv, h.client, rfl, fun g' hg' => ?_⟩
      obtain ⟨htrimmed, hfirst, hpending, hreceived⟩ := h.caught g' hg'
      simp only [Feed.front, Feed.unacked, hph] at hfirst hpending hreceived
      refine ⟨htrimmed, Nat.le_succ_of_le hfirst, hpending, ?_⟩
      -- one more entry is behind the loop
      have hi : i < s.log.entries.reverse.length := by
        rw [List.length_reverse]
        omega
      have hentry : s.entry? i = some s.log.entries.reverse[i] := List.getElem?_eq_getElem hi
      have hmore : (s.log.entries.reverse.take (i + 1)).drop first
          = (s.log.entries.reverse.take i).drop first ++ [s.log.entries.reverse[i]] := by
        rw [List.take_succ_eq_append_getElem hi, List.drop_append_of_le_length]
        rw [List.length_take]
        omega
      simp only [Feed.front, h.client, Bool.and_self, if_true]
      rw [List.flatMap_append, hreceived, message_events hentry, hmore, List.filter_append,
        List.append_assoc]
  | acked g i stop hph hg =>
      obtain ⟨hlt, hstop⟩ := h.inv.batch i stop g (by rw [hph]; rfl) hg
      obtain ⟨htrimmed, hfirst, hpending, hreceived⟩ := h.caught g hg
      simp only [Feed.front, Feed.unacked, hph] at hfirst hpending hreceived
      have herase : g.pending.erase i = List.range' (i + 1) (g.delivered - (i + 1)) := by
        rw [hpending, show g.delivered - i = g.delivered - (i + 1) + 1 by omega, List.range'_succ,
          List.erase_cons_head]
      refine ⟨hinv, h.client, ?_, fun g' hg' => ?_⟩
      · dsimp only
        split <;> rfl
      · cases hg'
        by_cases hmore : i + 1 < stop
        · simp only [Feed.front, Feed.unacked, if_pos hmore]
          exact ⟨htrimmed, hfirst, herase, hreceived⟩
        · have hend : i + 1 = g.delivered := by omega
          simp only [Feed.front, Feed.unacked, if_neg hmore]
          rw [herase, ← hend]
          exact ⟨by omega, hfirst, by rw [Nat.sub_self], hreceived⟩
  | ack_raised o g g' i stop hph hg ho hdelivered => exact absurd hsmooth ho
  | beat hph hclient =>
      refine ⟨hinv, h.client, rfl, fun g hg => ?_⟩
      obtain ⟨htrimmed, hfirst, hpending, hreceived⟩ := h.caught g hg
      simp only [Feed.front, Feed.unacked, hph] at hfirst hpending hreceived
      refine ⟨htrimmed, hfirst, hpending, ?_⟩
      rw [List.flatMap_append, hreceived]
      simp [heartbeat, handleMessage, Feed.front]
  | gone hph => cases hsmooth
  | beat_raised hph => cases hsmooth
  | _ => exact hsmooth.elim

/-- Nothing is sent before the group is there. -/
theorem received_of_creating {log : EventLog} {tr : List (Feed × FeedAction)}
    (hrun : Run Feed.step (Feed.initial log) tr s) (hph : s.phase = .creating) :
    s.received = [] := by
  induction hrun with
  | nil => rfl
  | cons _ hs ih =>
      cases Feed.step_took hs with
      | publish entry log hlog => exact ih hph
      | trim n hn => exact ih hph
      | leave => exact ih hph
      | destroy done hclosed => exact ih hph
      | acked g i stop hacking hg =>
          dsimp only at hph
          split at hph <;> cases hph
      | _ => cases hph

/-- **A connection without trouble misses nothing.** From the creation of its group on, as
long as nothing raises, the client is there and nothing is trimmed before it is read, the
client has received exactly the entries that were added since and have been handled, each
once and in their order, less those that could not be parsed; and the entries pending in the
group are those that have been read and not yet acknowledged. -/
theorem smooth_feed_complete {log : EventLog} {tr₀ tr : List (Feed × FeedAction)} {s₀ : Feed}
    (hrun₀ : Run Feed.step (Feed.initial log) tr₀ s₀) (hclient : s₀.client = true)
    (hcreate : s₀.step (.create none) = some s) (hrun : Run Feed.step s tr t)
    (hsmooth : StepsMeet Smooth tr) :
    ∃ g, t.group = some g ∧
      t.received.flatMap handleMessage
        = ((t.log.entries.reverse.take (t.front g)).drop s.log.entries.length).filter
          (·.event.isSome) ∧
      g.pending = List.range' (t.unacked g) (g.delivered - t.unacked g) := by
  have hinv₀ : s₀.Inv :=
    Run.invariant (C := fun _ _ => True) (fun _ _ _ h _ hs => h.step hs) (Feed.inv_initial log)
      hrun₀ fun _ _ => trivial
  have hinv := hinv₀.step hcreate
  cases Feed.step_took hcreate with
  | create hph =>
      have hstart : Complete s₀.log.entries.length []
          { s₀ with group := some ⟨s₀.log.entries.length, []⟩, phase := .reading } := by
        refine ⟨hinv, hclient, rfl, fun g hg => ?_⟩
        cases hg
        refine ⟨hinv₀.trimmed, Nat.le_refl _, by simp [Feed.unacked], ?_⟩
        rw [received_of_creating hrun₀ hph]
        simp [Feed.front]
      have h := Run.invariant (fun s a t h hC hs => Complete.step h hC hs) hstart hrun hsmooth
      obtain ⟨g, hg⟩ := h.inv.running h.running
      obtain ⟨-, -, hpending, hreceived⟩ := h.caught g hg
      exact ⟨g, hg, hreceived, hpending⟩

/-- The first entry was there before the group; the third cannot be parsed. -/
def smooth_feed : List FeedAction :=
  [.publish (inserted 2), .publish ⟨⟨3, 0⟩, none⟩, .publish (inserted 4), .read .ok, .send true,
    .ack .ok, .send true, .ack .ok, .send true]

/-- Of the three entries behind the creation of the group the client gets the two that can be
parsed, and the acknowledgement of the last one is still to come. -/
theorem smooth_feed_complete_four :
    ∃ tr t g, Run Feed.step (Feed.initial emptyLog) tr t ∧ t.group = some g ∧
      t.received.flatMap handleMessage = [inserted 2, inserted 4] ∧ g.pending = [3] := by
  obtain ⟨s₀, s, t, hs₀, hclient, hcreate, ht, hsince, hplace⟩ : ∃ s₀ s t,
      exec Feed.step (Feed.initial emptyLog) [.publish (inserted 1)] = some s₀ ∧
      s₀.client = true ∧ s₀.step (.create none) = some s ∧ exec Feed.step s smooth_feed = some t ∧
      ((t.log.entries.reverse.take 4).drop s.log.entries.length).filter (·.event.isSome)
        = [inserted 2, inserted 4] ∧
      t.group.map (fun g => (t.front g, t.unacked g, g.delivered)) = some (4, 3, 4) :=
    ⟨_, _, _, rfl, rfl, rfl, rfl, by decide, by decide⟩
  have hsmooth : ∀ a ∈ smooth_feed, ∀ s, Smooth s a := by simp [smooth_feed, Smooth]
  obtain ⟨g, hg, hreceived, hpending⟩ := smooth_feed_complete (run_trace hs₀) hclient hcreate
    (run_trace ht) fun p hp => hsmooth _ (mem_of_mem_trace hp) p.1
  rw [hg, Option.map_some, Option.some.injEq, Prod.mk.injEq, Prod.mk.injEq] at hplace
  obtain ⟨hfront, hunacked, hdelivered⟩ := hplace
  rw [hfront] at hreceived
  rw [hunacked, hdelivered] at hpending
  have hrun := run_trace hs₀
  exact ⟨_, t, g, Run.append (Run.cons hrun hcreate) (run_trace ht), hg, hreceived.trans hsince,
    hpending⟩

end

end WalStream.Control

/-
The `useWebSocket` hook: one connection, and the reconnection after it closes.

The hook's functions and handlers share three refs. What they know of the props and of
`reconnectAttempts` is what was rendered when they were made: a socket's close handler, and
the timer it starts, go by the rendering their socket was made in. Closing is asynchronous.
`disconnect` closes the socket and clears the one timer the ref knows; the close handler of
that socket runs later, finds the component mounted, and starts the next timer.

`disconnected` is set by `disconnect` and reset by every `connect` the user or the effect
makes; nothing reads it. The handlers of a socket fire as the browser fires them, in any
order that its state allows; a callback of the caller is the last thing its handler does,
except `onClose`, which may call back into the hook before the handler goes on. The URL is
one that both `new URL` and `new WebSocket` accept.
-/
import WalStream.Lib.Run
import Mathlib.Data.List.Basic
import Mathlib.Algebra.Group.Nat.Defs

set_option autoImplicit false

namespace WalStream.Frontend.WebSocket

open Lib

/-! ## The hook

The functions of the hook are closures, and each rendering makes new ones. A function of the
model takes the rendering it was made in, beside the refs that all of them share. -/

/-- The status the hook shows. It is `error` only until the close event that follows an error. -/
inductive WebSocketStatus
  | connecting
  | connected
  | disconnected
  | error
deriving DecidableEq

/-- `UseWebSocketOptions`; `callbacks` stands for which functions the caller passed. -/
structure UseWebSocketOptions where
  url : String
  reconnect : Bool := true
  reconnectInterval : Nat := 3000
  maxReconnectAttempts : Nat := 10
  callbacks : Nat := 0
deriving DecidableEq

/-- What the functions of one rendering captured. -/
structure Rendering where
  options : UseWebSocketOptions
  /-- `useAuthStore().token`. -/
  token : Option String
  reconnectAttempts : Nat
deriving DecidableEq

/-- The condition of a reconnection. -/
def Rendering.reconnects (r : Rendering) : Bool :=
  r.options.reconnect && decide (r.reconnectAttempts < r.options.maxReconnectAttempts)

/-- Exponential backoff, at most 30 seconds. -/
def Rendering.backoffTime (r : Rendering) : Nat :=
  min (r.options.reconnectInterval * 2 ^ r.reconnectAttempts) 30000

/-- `WebSocket.readyState`, with the names the browser gives its values. -/
inductive ReadyState
  | CONNECTING
  | OPEN
  | CLOSING
  | CLOSED
deriving DecidableEq

/-- A `WebSocket` object, with the rendering its handlers are from. -/
structure Socket where
  made_in : Rendering
  readyState : ReadyState
  /-- Its close event has been fired. -/
  finished : Bool
deriving DecidableEq

/-- `ws.close()`: nothing happens to a socket that is closing or closed already. -/
def Socket.close (socket : Socket) : Socket :=
  match socket.readyState with
  | .CONNECTING => { socket with readyState := .CLOSING }
  | .OPEN => { socket with readyState := .CLOSING }
  | .CLOSING => socket
  | .CLOSED => socket

/-- A pending `setTimeout`. -/
structure Timer where
  id : Nat
  made_in : Rendering
  delay : Nat
deriving DecidableEq

/-- The hook: its state, its three refs, and what the browser holds for it, the sockets and the
pending timers. A ref knows one timer, and the browser may hold more of them. -/
structure Hook where
  status : WebSocketStatus
  lastMessage : Option String
  reconnectAttempts : Nat
  /-- The sockets created so far. -/
  sockets : List Socket
  wsRef : Option Nat
  /-- The timers that have not fired and were not cleared. -/
  timers : List Timer
  nextTimer : Nat
  reconnectTimeoutRef : Option Nat
  mountedRef : Bool
  /-- The latest rendering, and whether its effect is in force. -/
  rendered : Rendering
  effective : Bool
  /-- `disconnect` was called, and `connect` not since. -/
  disconnected : Bool
deriving DecidableEq

/-- The hook at its first rendering, before the effect. -/
def Hook.start (options : UseWebSocketOptions) (token : Option String) : Hook :=
  { status := .disconnected, lastMessage := none, reconnectAttempts := 0, sockets := [],
    wsRef := none, timers := [], nextTimer := 1, reconnectTimeoutRef := none,
    mountedRef := true,
    rendered := { options := options, token := token, reconnectAttempts := 0 },
    effective := false, disconnected := false }

namespace Hook

/-- The socket the ref holds. -/
def current (s : Hook) : Option Socket := s.wsRef.bind fun i => s.sockets[i]?

def modifySocket (s : Hook) (i : Nat) (f : Socket → Socket) : Hook :=
  { s with sockets := s.sockets.modify i f }

/-- `wsRef.current.close()`, if there is one. -/
def closeCurrent (s : Hook) : Hook :=
  match s.wsRef with
  | some i => s.modifySocket i Socket.close
  | none => s

def clearReconnectTimeout (s : Hook) : Hook :=
  match s.reconnectTimeoutRef with
  | some id =>
      { s with timers := s.timers.filter fun timer => decide (timer.id ≠ id),
               reconnectTimeoutRef := none }
  | none => s

def disconnect (s : Hook) : Hook :=
  { s.clearReconnectTimeout.closeCurrent with
    wsRef := none, status := .disconnected, disconnected := true }

/-- `connect` of a rendering. -/
def connect (s : Hook) (r : Rendering) : Hook :=
  if !s.mountedRef then s
  else if s.current.any fun socket => decide (socket.readyState = .OPEN) then s
  else
    { s with
      status := .connecting,
      sockets := s.sockets ++ [{ made_in := r, readyState := .CONNECTING, finished := false }],
      wsRef := some s.sockets.length }

/-- The caller calls `connect`, or the effect does. -/
def connectAgain (s : Hook) (r : Rendering) : Hook :=
  { s.connect r with disconnected := false }

/-- The cleanup of the effect. -/
def cleanup (s : Hook) : Hook :=
  { ({ s with mountedRef := false }.clearReconnectTimeout).closeCurrent with effective := false }

/-- The effect of a rendering. -/
def effect (s : Hook) (r : Rendering) : Hook :=
  { { s with mountedRef := true }.connectAgain r with rendered := r, effective := true }

/-- A rendering with these options and this token. The effect depends on `connect`, and `connect` on all
the rendering holds. -/
def render (s : Hook) (options : UseWebSocketOptions) (token : Option String) : Hook :=
  let r : Rendering :=
    { options := options, token := token, reconnectAttempts := s.reconnectAttempts }
  if s.effective then
    if s.rendered = r then s else s.cleanup.effect r
  else s.effect r

def unmount (s : Hook) : Hook := if s.effective then s.cleanup else s

/-! ## The handlers

What the browser calls. A handler belongs to the rendering in which its socket was made, even
when the props have changed since. -/

def onopen (s : Hook) : Hook :=
  if !s.mountedRef then s else { s with status := .connected, reconnectAttempts := 0 }

/-- `onmessage`; the data is kept as its text. -/
def onmessage (s : Hook) (data : String) : Hook :=
  if !s.mountedRef then s else { s with lastMessage := some data }

def onerror (s : Hook) : Hook :=
  if !s.mountedRef then s else { s with status := .error }

/-- `reconnectTimeoutRef.current = setTimeout(...)`. -/
def setReconnectTimeout (s : Hook) (r : Rendering) : Hook :=
  { s with
    timers := s.timers ++ [{ id := s.nextTimer, made_in := r, delay := r.backoffTime }],
    nextTimer := s.nextTimer + 1, reconnectTimeoutRef := some s.nextTimer }

end Hook

/-- A call of the caller into the hook. -/
inductive UserCall
  | connect
  | disconnect
deriving DecidableEq

namespace Hook

/-- The caller has the functions of the latest rendering. -/
def call (s : Hook) : UserCall → Hook
  | .connect => s.connectAgain s.rendered
  | .disconnect => s.disconnect

/-- `onclose` of a socket made in that rendering, whose `onClose` makes the call. -/
def onclose (s : Hook) (r : Rendering) (onClose : Option UserCall) : Hook :=
  if !s.mountedRef then s
  else
    let s := { s with status := .disconnected }
    let s := (onClose.map s.call).getD s
    if r.reconnects then s.setReconnectTimeout r else s

/-- The callback of a timer. -/
def reconnect (s : Hook) (r : Rendering) : Hook :=
  if s.mountedRef then { s with reconnectAttempts := s.reconnectAttempts + 1 }.connect r else s

end Hook

/-! ## What may happen

Which handler may fire depends on the state of the socket, and on nothing that the hook does.
Hence the order of events is as open as it is in a browser. -/

inductive Act
  /-- The component is rendered for the first time, or again. -/
  | render (options : UseWebSocketOptions) (token : Option String)
  | unmount
  /-- The caller calls `connect` or `disconnect`. -/
  | user (call : UserCall)
  /-- The events of socket `i`. -/
  | opened (i : Nat)
  | message (i : Nat) (data : String)
  | error (i : Nat)
  | close (i : Nat) (onClose : Option UserCall)
  /-- A pending timer fires. -/
  | fire (id : Nat)
deriving DecidableEq

def step (s : Hook) : Act → Option Hook
  | .render options token => some (s.render options token)
  | .unmount => some s.unmount
  | .user call => some (s.call call)
  | .opened i => do
      let socket ← s.sockets[i]?
      if socket.readyState = .CONNECTING then
        some (s.modifySocket i fun socket => { socket with readyState := .OPEN }).onopen
      else none
  | .message i data => do
      let socket ← s.sockets[i]?
      if socket.readyState = .OPEN then some (s.onmessage data) else none
  | .error i => do
      let socket ← s.sockets[i]?
      -- a connection that fails is closed before its error event
      if socket.finished then none
      else some (s.modifySocket i fun socket => { socket with readyState := .CLOSED }).onerror
  | .close i onClose => do
      let socket ← s.sockets[i]?
      if socket.finished then none
      else
        some ((s.modifySocket i fun socket =>
          { socket with readyState := .CLOSED, finished := true }).onclose socket.made_in onClose)
  | .fire id => do
      let timer ← s.timers.find? fun timer => decide (timer.id = id)
      some ({ s with timers := s.timers.filter fun timer => decide (timer.id ≠ id) }.reconnect
        timer.made_in)

/-- What a step does, action by action. -/
inductive Stepped (s : Hook) : Act → Hook → Prop
  | render (options : UseWebSocketOptions) (token : Option String) :
      Stepped s (.render options token) (s.render options token)
  | unmount : Stepped s .unmount s.unmount
  | user (call : UserCall) : Stepped s (.user call) (s.call call)
  | opened (i : Nat) : Stepped s (.opened i)
      (s.modifySocket i fun socket => { socket with readyState := .OPEN }).onopen
  | message (i : Nat) (data : String) : Stepped s (.message i data) (s.onmessage data)
  | error (i : Nat) : Stepped s (.error i)
      (s.modifySocket i fun socket => { socket with readyState := .CLOSED }).onerror
  | close {i : Nat} {socket : Socket} (hsocket : s.sockets[i]? = some socket)
      (onClose : Option UserCall) : Stepped s (.close i onClose)
        ((s.modifySocket i fun socket =>
          { socket with readyState := .CLOSED, finished := true }).onclose socket.made_in onClose)
  | fire {id : Nat} {timer : Timer} (htimer : timer ∈ s.timers) : Stepped s (.fire id)
      ({ s with timers := s.timers.filter fun timer => decide (timer.id ≠ id) }.reconnect
        timer.made_in)

/-- **The inversion of `step`.** All that follows about a step is by cases on this. -/
theorem stepped_of_step {s t : Hook} {a : Act} (ht : step s a = some t) : Stepped s a t := by
  cases a with
  | render options token =>
      obtain rfl := Option.some.inj ht
      exact .render options token
  | unmount =>
      obtain rfl := Option.some.inj ht
      exact .unmount
  | user call =>
      obtain rfl := Option.some.inj ht
      exact .user call
  | opened i =>
      obtain ⟨socket, -, ht⟩ := Option.bind_eq_some_iff.mp ht
      split at ht
      · obtain rfl := Option.some.inj ht
        exact .opened i
      · cases ht
  | message i data =>
      obtain ⟨socket, -, ht⟩ := Option.bind_eq_some_iff.mp ht
      split at ht
      · obtain rfl := Option.some.inj ht
        exact .message i data
      · cases ht
  | error i =>
      obtain ⟨socket, -, ht⟩ := Option.bind_eq_some_iff.mp ht
      split at ht
      · cases ht
      · obtain rfl := Option.some.inj ht
        exact .error i
  | close i onClose =>
      obtain ⟨socket, hsocket, ht⟩ := Option.bind_eq_some_iff.mp ht
      split at ht
      · cases ht
      · obtain rfl := Option.some.inj ht
        exact .close hsocket onClose
  | fire id =>
      obtain ⟨timer, hfind, ht⟩ := Option.bind_eq_some_iff.mp ht
      obtain rfl := Option.some.inj ht
      exact .fire (List.mem_of_find?_eq_some hfind)

/-! ## Staying disconnected

The property, and what breaks it: a timer that nobody clears, or one that is started after
`disconnect` by the close event of a socket that it closed. -/

/-- After `disconnect`, no reconnection is scheduled in a mounted component. -/
def NoneScheduled (s : Hook) : Prop :=
  s.disconnected = true → s.mountedRef = true → s.timers = []

/-- The caller or the effect may call `connect` in the step. -/
def Act.connects : Act → Bool
  | .render _ _ => true
  | .user .connect => true
  | .close _ (some .connect) => true
  | _ => false

/-- After `disconnect`, the step creates no socket, unless it is one that calls `connect`. -/
def CreatesNone (s : Hook) (a : Act) : Prop :=
  s.disconnected = true → a.connects = false →
    ∀ t, step s a = some t → t.sockets.length = s.sockets.length

/-- The only timer pending is the one the ref knows. -/
def OnlyTracked (s : Hook) : Prop := ∀ timer ∈ s.timers, s.reconnectTimeoutRef = some timer.id

/-- The close event of a socket from a rendering that does not reconnect. -/
def ClosesForGood (s : Hook) (i : Nat) : Prop :=
  ∀ socket ∈ s.sockets[i]?, socket.made_in.reconnects = false

/-- The condition on the steps of a mounted component: `disconnect` finds no other timer
than the one the ref knows, and a close event that is handled disconnected is of a socket
that has no reconnection left. -/
def Settled (s : Hook) : Act → Prop
  | .user .disconnect => s.mountedRef = true → OnlyTracked s
  | .close i none => s.mountedRef = true → s.disconnected = true → ClosesForGood s i
  | .close i (some .disconnect) => s.mountedRef = true → OnlyTracked s ∧ ClosesForGood s i
  | _ => True

instance (s : Hook) : (a : Act) → Decidable (Settled s a)
  | .user .disconnect => inferInstanceAs (Decidable (s.mountedRef = true →
      ∀ timer ∈ s.timers, s.reconnectTimeoutRef = some timer.id))
  | .close i none => inferInstanceAs (Decidable (s.mountedRef = true → s.disconnected = true →
      ∀ socket ∈ s.sockets[i]?, socket.made_in.reconnects = false))
  | .close i (some .disconnect) => inferInstanceAs (Decidable (s.mountedRef = true →
      (∀ timer ∈ s.timers, s.reconnectTimeoutRef = some timer.id) ∧
        ∀ socket ∈ s.sockets[i]?, socket.made_in.reconnects = false))
  | .close _ (some .connect) => isTrue trivial
  | .user .connect => isTrue trivial
  | .render _ _ => isTrue trivial
  | .unmount => isTrue trivial
  | .opened _ => isTrue trivial
  | .message _ _ => isTrue trivial
  | .error _ => isTrue trivial
  | .fire _ => isTrue trivial

/-! ## What the functions leave alone

Frame lemmas. The property looks at the timers, the mounted ref and the flag; most functions
touch one of these at most. -/

variable {s t : Hook} {r : Rendering}

namespace Hook

/-- Closing a socket starts no timer by itself: its close event comes later. -/
@[simp] theorem timers_closeCurrent (s : Hook) : s.closeCurrent.timers = s.timers := by
  unfold closeCurrent
  split <;> rfl

/-- Nor does it say anything about the component. -/
@[simp] theorem mountedRef_closeCurrent (s : Hook) : s.closeCurrent.mountedRef = s.mountedRef := by
  unfold closeCurrent
  split <;> rfl

/-- And it makes no socket. These and the next ones are all that is used of the small functions
of the hook. -/
@[simp] theorem length_closeCurrent (s : Hook) :
    s.closeCurrent.sockets.length = s.sockets.length := by
  unfold closeCurrent
  split
  · exact List.length_modify ..
  · rfl

@[simp] theorem mountedRef_clear (s : Hook) :
    s.clearReconnectTimeout.mountedRef = s.mountedRef := by
  unfold clearReconnectTimeout
  split <;> rfl

@[simp] theorem sockets_clear (s : Hook) : s.clearReconnectTimeout.sockets = s.sockets := by
  unfold clearReconnectTimeout
  split <;> rfl

@[simp] theorem mountedRef_disconnect (s : Hook) : s.disconnect.mountedRef = s.mountedRef := by
  simp [disconnect]

@[simp] theorem length_disconnect (s : Hook) : s.disconnect.sockets.length = s.sockets.length := by
  change s.clearReconnectTimeout.closeCurrent.sockets.length = _
  rw [length_closeCurrent, sockets_clear]

/-- `disconnect` leaves the timers that the ref does not know. -/
theorem timers_disconnect_eq_nil_iff (s : Hook) : s.disconnect.timers = [] ↔ OnlyTracked s := by
  change s.clearReconnectTimeout.closeCurrent.timers = [] ↔ _
  rw [timers_closeCurrent]
  unfold clearReconnectTimeout OnlyTracked
  cases s.reconnectTimeoutRef with
  | some id =>
      simp only [List.filter_eq_nil_iff, decide_eq_true_eq, Option.some.injEq, not_not]
      exact forall₂_congr fun timer _ => eq_comm
  | none => simp [List.eq_nil_iff_forall_not_mem]

/-- `connect` as a timer or a handler calls it leaves the flag alone; only a call of the user or
of the effect clears it. -/
theorem disconnected_connect (s : Hook) (r : Rendering) :
    (s.connect r).disconnected = s.disconnected := by
  unfold connect
  split_ifs <;> rfl

@[simp] theorem length_modifySocket (s : Hook) (i : Nat) (f : Socket → Socket) :
    (s.modifySocket i f).sockets.length = s.sockets.length :=
  List.length_modify ..

/-- The cleanup closes a socket and makes none. -/
theorem length_unmount (s : Hook) : s.unmount.sockets.length = s.sockets.length := by
  unfold unmount
  split_ifs
  · change (closeCurrent (clearReconnectTimeout { s with mountedRef := false })).sockets.length = _
    rw [length_closeCurrent, sockets_clear]
  · rfl

/-- The handlers create no socket, unless `onClose` calls `connect`. -/
theorem sockets_onopen (s : Hook) : s.onopen.sockets = s.sockets := by
  unfold onopen
  split_ifs <;> rfl

/-- A message changes no socket, -/
theorem sockets_onmessage (s : Hook) (data : String) :
    (s.onmessage data).sockets = s.sockets := by
  unfold onmessage
  split_ifs <;> rfl

/-- and neither does an error, which leaves the rest to the close event. -/
theorem sockets_onerror (s : Hook) : s.onerror.sockets = s.sockets := by
  unfold onerror
  split_ifs <;> rfl

/-- A close handler makes no socket unless the caller's `onClose` calls `connect` in it. What it
may do instead is start a timer. -/
theorem length_onclose (s : Hook) (r : Rendering) {onClose : Option UserCall}
    (h : onClose ≠ some .connect) : (s.onclose r onClose).sockets.length = s.sockets.length := by
  have hcall : ∀ u : Hook, ((onClose.map u.call).getD u).sockets.length = u.sockets.length := by
    intro u
    match onClose with
    | none => rfl
    | some .connect => exact absurd rfl h
    | some .disconnect => exact length_disconnect u
  unfold onclose
  dsimp only
  split_ifs
  · rfl
  · exact hcall _
  · exact hcall _

/-- A close handler starts a timer when its rendering reconnects. -/
theorem timers_setReconnectTimeout (s : Hook) (r : Rendering) :
    (s.setReconnectTimeout r).timers ≠ [] := by
  simp [setReconnectTimeout]

end Hook

/-! ## One step

Action by action, from the frame lemmas. Two of the actions decide, and their lemmas are
equivalences. -/

/-- The ref, the flag and the pending timers decide. -/
theorem NoneScheduled.congr (h : NoneScheduled s) (htimers : t.timers = s.timers)
    (hmounted : t.mountedRef = s.mountedRef) (hflag : t.disconnected = s.disconnected) :
    NoneScheduled t := by
  intro hdisconnected hm
  rw [htimers]
  exact h (hflag ▸ hdisconnected) (hmounted ▸ hm)

/-- Connected, there is nothing to show: the property is about a hook that was told to
disconnect. -/
theorem noneScheduled_of_connected (h : s.disconnected = false) : NoneScheduled s := by
  intro hdisconnected
  rw [h] at hdisconnected
  cases hdisconnected

/-- A call of `connect` ends what the property speaks of, until the next `disconnect`. -/
theorem noneScheduled_connectAgain (s : Hook) (r : Rendering) :
    NoneScheduled (s.connectAgain r) :=
  noneScheduled_of_connected rfl

/-- `disconnect` clears the timer that the ref knows. Whether nothing is scheduled after it
depends on there being no other one. -/
theorem noneScheduled_disconnect_iff (s : Hook) :
    NoneScheduled s.disconnect ↔ (s.mountedRef = true → OnlyTracked s) := by
  rw [← Hook.timers_disconnect_eq_nil_iff, ← Hook.mountedRef_disconnect]
  exact ⟨fun h => h rfl, fun h _ => h⟩

/-- A rendering may run the effect, which connects; if it does not, it touches no timer. -/
theorem noneScheduled_render (h : NoneScheduled s) (options : UseWebSocketOptions)
    (token : Option String) : NoneScheduled (s.render options token) := by
  unfold Hook.render
  dsimp only
  split_ifs
  · exact h
  · exact noneScheduled_of_connected rfl
  · exact noneScheduled_of_connected rfl

/-- After the unmounting there is no component that could be reconnected by mistake. -/
theorem noneScheduled_unmount (h : NoneScheduled s) : NoneScheduled s.unmount := by
  unfold Hook.unmount
  split_ifs
  · intro _ hmounted
    -- the cleanup has reset the ref
    have hfalse : s.cleanup.mountedRef = false := by simp [Hook.cleanup]
    rw [hfalse] at hmounted
    cases hmounted
  · exact h

/-- An open event may come after `disconnect`, since closing takes its time, but it starts
nothing. -/
theorem noneScheduled_opened (h : NoneScheduled s) : NoneScheduled s.onopen := by
  unfold Hook.onopen
  split_ifs
  · exact h
  · exact h.congr rfl rfl rfl

/-- The same of a message -/
theorem noneScheduled_message (h : NoneScheduled s) (data : String) :
    NoneScheduled (s.onmessage data) := by
  unfold Hook.onmessage
  split_ifs
  · exact h
  · exact h.congr rfl rfl rfl

/-- and of an error. -/
theorem noneScheduled_error (h : NoneScheduled s) : NoneScheduled s.onerror := by
  unfold Hook.onerror
  split_ifs
  · exact h
  · exact h.congr rfl rfl rfl

/-- The end of a close handler: nothing is scheduled after it unless the caller stays
connected, or nothing was scheduled before it and the rendering does not reconnect. -/
theorem noneScheduled_finish_iff (s : Hook) (r : Rendering) :
    NoneScheduled (if r.reconnects then s.setReconnectTimeout r else s) ↔
      (s.disconnected = true → s.mountedRef = true → s.timers = [] ∧ r.reconnects = false) := by
  cases hreconnects : r.reconnects with
  | true =>
      rw [if_pos rfl]
      constructor
      · intro h hdisconnected hmounted
        exact absurd (h hdisconnected hmounted) (s.timers_setReconnectTimeout r)
      · intro h hdisconnected hmounted
        exact absurd (h hdisconnected hmounted).2 (by simp)
  | false =>
      rw [if_neg (by simp)]
      exact ⟨fun h hd hm => ⟨h hd hm, rfl⟩, fun h hd hm => (h hd hm).1⟩

/-- **The close event.** This is the handler that starts timers, so here the condition is
decided: by what the caller does in its `onClose` before the handler goes on, and by whether the
rendering of the socket reconnects. -/
theorem noneScheduled_close_iff (h : NoneScheduled s) (r : Rendering)
    (onClose : Option UserCall) : NoneScheduled (s.onclose r onClose) ↔
      match onClose with
      | none => s.mountedRef = true → s.disconnected = true → r.reconnects = false
      | some .connect => True
      | some .disconnect => s.mountedRef = true → OnlyTracked s ∧ r.reconnects = false := by
  unfold Hook.onclose
  by_cases hmounted : s.mountedRef = true
  · rw [if_neg (by simp [hmounted])]
    dsimp only
    rw [noneScheduled_finish_iff]
    match onClose with
    | none =>
        constructor
        · intro hclose _ hdisconnected
          exact (hclose hdisconnected hmounted).2
        · intro hclose hdisconnected _
          exact ⟨h hdisconnected hmounted, hclose hmounted hdisconnected⟩
    | some .connect =>
        refine iff_of_true ?_ trivial
        intro hdisconnected
        cases hdisconnected
    | some .disconnect =>
        -- the status set before is overwritten by `disconnect`
        have htimers : (Hook.disconnect { s with status := .disconnected }).timers = [] ↔
            OnlyTracked s := Hook.timers_disconnect_eq_nil_iff _
        change (_ → (Hook.disconnect { s with status := .disconnected }).mountedRef = true →
          (Hook.disconnect { s with status := .disconnected }).timers = [] ∧ _) ↔ _
        rw [htimers, Hook.mountedRef_disconnect]
        exact ⟨fun hclose hm => hclose rfl hm, fun hclose _ hm => hclose hm⟩
  · -- the handler returns at once
    rw [if_pos (by simpa using hmounted)]
    match onClose with
    | none => exact iff_of_true h fun hm => absurd hm hmounted
    | some .connect => exact iff_of_true h trivial
    | some .disconnect => exact iff_of_true h fun hm => absurd hm hmounted

/-- A timer that fires disconnected fires in a component that is gone. -/
theorem noneScheduled_fire (h : NoneScheduled s) {timer : Timer} (htimer : timer ∈ s.timers)
    (id : Nat) :
    NoneScheduled ({ s with
        timers := s.timers.filter fun timer => decide (timer.id ≠ id) }.reconnect timer.made_in) ∧
      (s.disconnected = true →
        ({ s with timers := s.timers.filter fun timer => decide (timer.id ≠ id) }.reconnect
          timer.made_in).sockets.length = s.sockets.length) := by
  have hpending : s.timers ≠ [] := List.ne_nil_of_mem htimer
  unfold Hook.reconnect
  by_cases hmounted : s.mountedRef = true
  · -- mounted with a timer pending, so not disconnected
    have hconnected : s.disconnected = false := by
      by_contra hdisconnected
      exact hpending (h (by simpa using hdisconnected) hmounted)
    rw [if_pos hmounted]
    constructor
    · apply noneScheduled_of_connected
      rw [Hook.disconnected_connect]
      exact hconnected
    · intro hdisconnected
      rw [hconnected] at hdisconnected
      cases hdisconnected
  · rw [if_neg hmounted]
    exact ⟨fun _ hm => absurd hm hmounted, fun _ => rfl⟩

/-- **One step.** The two ways out of the property are a `disconnect` with a timer the ref has
lost, and a close event handled after it; every other step keeps the property without a
condition. -/
theorem step_noneScheduled_iff (h : NoneScheduled s) {a : Act} (ht : step s a = some t) :
    NoneScheduled t ↔ Settled s a := by
  cases stepped_of_step ht with
  | render options token => exact iff_of_true (noneScheduled_render h options token) trivial
  | unmount => exact iff_of_true (noneScheduled_unmount h) trivial
  | user call =>
      cases call with
      | connect => exact iff_of_true (noneScheduled_connectAgain s s.rendered) trivial
      | disconnect => exact noneScheduled_disconnect_iff s
  | opened i => exact iff_of_true (noneScheduled_opened (h.congr rfl rfl rfl)) trivial
  | message i data => exact iff_of_true (noneScheduled_message h data) trivial
  | error i => exact iff_of_true (noneScheduled_error (h.congr rfl rfl rfl)) trivial
  | @close i socket hsocket onClose =>
      have hgood : ClosesForGood s i ↔ socket.made_in.reconnects = false := by
        simp [ClosesForGood, hsocket]
      have hclosed : NoneScheduled (s.modifySocket i fun socket =>
          { socket with readyState := .CLOSED, finished := true }) := h.congr rfl rfl rfl
      rw [noneScheduled_close_iff hclosed]
      match onClose with
      | none =>
          change (_ → _ → _) ↔ (_ → _ → ClosesForGood s i)
          rw [hgood]
          exact Iff.rfl
      | some .connect => exact Iff.rfl
      | some .disconnect =>
          change (_ → _ ∧ _) ↔ (_ → _ ∧ ClosesForGood s i)
          rw [hgood]
          exact Iff.rfl
  | @fire id timer htimer => exact iff_of_true (noneScheduled_fire h htimer id).1 trivial

/-- While nothing is scheduled, only a call of `connect` creates a socket. -/
theorem createsNone (h : NoneScheduled s) (a : Act) : CreatesNone s a := by
  intro hdisconnected hconnects t ht
  cases stepped_of_step ht with
  | render options token => cases hconnects
  | unmount => exact s.length_unmount
  | user call =>
      cases call with
      | connect => cases hconnects
      | disconnect => exact s.length_disconnect
  | opened i => rw [Hook.sockets_onopen, Hook.length_modifySocket]
  | message i data => rw [Hook.sockets_onmessage]
  | error i => rw [Hook.sockets_onerror, Hook.length_modifySocket]
  | @close i socket hsocket onClose =>
      have hnot : onClose ≠ some .connect := by
        rintro rfl
        cases hconnects
      rw [Hook.length_onclose _ _ hnot, Hook.length_modifySocket]
  | @fire id timer htimer => exact (noneScheduled_fire h htimer id).2 hdisconnected

/-! ## Runs -/

/-- The options of the event stream. -/
def streamOptions : UseWebSocketOptions := { url := "ws://localhost:8000/api/v1/events/ws" }

/-- The close event of the socket that `disconnect` closed schedules a reconnection, and
when the timer fires there is a new socket. -/
theorem disconnect_does_not_stick :
    (¬ ∀ tr s, Run step (Hook.start streamOptions none) tr s → NoneScheduled s) ∧
      ¬ ∀ tr s, Run step (Hook.start streamOptions none) tr s →
        ∀ p ∈ tr, CreatesNone p.1 p.2 := by
  have hclosed : ∃ tr s, Run step (Hook.start streamOptions none) tr s ∧
      s.disconnected = true ∧ s.mountedRef = true ∧ s.timers ≠ [] ∧
      (step s (.fire 1)).map (fun t => t.sockets.length) = some (s.sockets.length + 1) :=
    exists_run_of_exec [.render streamOptions none, .opened 0, .user .disconnect, .close 0 none]
      (by decide)
  obtain ⟨tr, s, hrun, hdisconnected, hmounted, htimers, hfire⟩ := hclosed
  constructor
  · intro hall
    exact htimers (hall tr s hrun hdisconnected hmounted)
  · intro hall
    obtain ⟨t, ht, hlength⟩ := Option.map_eq_some_iff.mp hfire
    have hsame := hall _ t (Run.cons hrun ht) (s, .fire 1) (List.mem_cons_self ..)
      hdisconnected rfl t ht
    rw [hlength] at hsame
    exact absurd hsame (Nat.succ_ne_self _)

/-- **An explicit disconnect.** Along a run nothing is scheduled after `disconnect`, and
only a call of `connect` creates a socket then, exactly when every `disconnect` finds no
other timer than the one the ref knows and no socket with a reconnection left closes after
it. -/
theorem disconnect_sticks_iff {options : UseWebSocketOptions} {token : Option String}
    {tr : List (Hook × Act)} (hrun : Run step (Hook.start options token) tr s) :
    ((∀ p ∈ tr, NoneScheduled p.1 ∧ CreatesNone p.1 p.2) ∧ NoneScheduled s) ↔
      StepsMeet Settled tr := by
  have hexact := Run.exact (P := NoneScheduled) (J := fun _ => True)
    (fun _ _ _ hnone _ hstep => step_noneScheduled_iff hnone hstep) (fun _ _ _ _ _ _ _ => trivial)
    (noneScheduled_of_connected rfl) trivial hrun
  rw [← hexact]
  constructor
  · rintro ⟨hall, hend⟩
    exact ⟨fun p hp => (hall p hp).1, hend⟩
  · rintro ⟨hall, hend⟩
    exact ⟨fun p hp => ⟨hall p hp, createsNone (hall p hp) p.2⟩, hend⟩

/-- The condition is met by a hook whose connection failed, disconnected while it waits for
its timer. -/
theorem disconnect_sticks_sample : ∃ tr s, Run step (Hook.start streamOptions none) tr s ∧
    ((∀ p ∈ tr, NoneScheduled p.1 ∧ CreatesNone p.1 p.2) ∧ NoneScheduled s) ∧
    s.disconnected = true := by
  have hwaiting : ∃ tr s, Run step (Hook.start streamOptions none) tr s ∧
      StepsMeet Settled tr ∧ s.disconnected = true :=
    exists_run_meeting_of_exec [.render streamOptions none, .error 0, .close 0 none,
      .user .disconnect] (by decide) (by decide)
  obtain ⟨tr, s, hrun, hsettled, hdisconnected⟩ := hwaiting
  exact ⟨tr, s, hrun, (disconnect_sticks_iff hrun).mpr hsettled, hdisconnected⟩

end WalStream.Frontend.WebSocket

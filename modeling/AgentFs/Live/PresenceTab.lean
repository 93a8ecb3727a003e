import AgentFs.Presence.Streams

/-!
# The presence of a tab

`startPresence` of `live/src/components/presence/PresenceConnection.tsx`, the presence store that it
feeds, and `createThrottle` of `live/src/lib/presence.ts`.  A run of `connect`, a request and a
timeout have a number; what may happen next are the actions, each with the time of the clock.
-/

namespace AgentFs

section

variable {State : Type}

/-! ### Throttle -/

/-- When it sent last, and when the pending timeout is due. -/
structure Throttle where
  lastSent : Option Nat
  due : Option Nat
  deriving DecidableEq, Repr

def Throttle.new : Throttle :=
  ⟨none, none⟩

/-- When a request is served: `ms` after the last send, or at once. -/
def sendTime (lastSent : Option Nat) (ms now : Nat) : Nat :=
  match lastSent with
  | none => now
  | some sent => max now (sent + ms)

def Throttle.request (ms now : Nat) (t : Throttle) : Throttle :=
  match t.due with
  | none => { t with due := some (sendTime t.lastSent ms now) }
  | some due =>
      if sendTime t.lastSent ms now ≥ due then t
      else { t with due := some (sendTime t.lastSent ms now) }

/-- The timeout, before it sends. -/
def Throttle.fire (now : Nat) (_ : Throttle) : Throttle :=
  ⟨some now, none⟩

def Throttle.cancel (t : Throttle) : Throttle :=
  { t with due := none }

/-! ### Requests and timeouts -/

inductive PresenceMode where
  | stream
  | poll
  | off
  deriving DecidableEq, Repr

inductive PutAnswer where
  | ok
  /-- HTTP 429. -/
  | tooManyRequests
  | failed
  deriving DecidableEq, Repr

/-- A `putPresence` request. -/
structure PresencePut (State : Type) where
  state : State
  answer : Option PutAnswer
  deriving DecidableEq, Repr

inductive ConnectPhase where
  | opening
  | reading
  deriving DecidableEq, Repr

/-- A run of `connect` that has not returned. -/
structure Connect where
  id : Nat
  phase : ConnectPhase
  deriving DecidableEq, Repr

/-- A pending timeout that runs `connect`. -/
structure Reconnect where
  id : Nat
  delay : Nat
  deriving DecidableEq, Repr

/-- What `openDriveEvents` answers. -/
inductive StreamOpened where
  | ok
  | tooMany
  /-- Another status, no body, or no answer. -/
  | failed
  deriving DecidableEq, Repr

/-! ### Publisher -/

/-- The publisher of a tab. -/
structure PresencePublisher (State : Type) where
  /-- `getLocalState` of the store. -/
  localState : State
  lastSent : Option State
  inFlight : Bool
  /-- Whether the send that waits for the request in flight is forced. -/
  queued : Option Bool
  pausedUntil : Nat
  throttle : Throttle
  puts : List (PresencePut State)
  /-- A pointer move was dropped since the local state was read last. -/
  dropped : Bool
  deriving DecidableEq, Repr

namespace PresencePublisher

variable [DecidableEq State]

def start (localState : State) (now : Nat) : PresencePublisher State where
  localState := localState
  lastSent := none
  inFlight := false
  queued := none
  pausedUntil := 0
  throttle := Throttle.new.request 0 now
  puts := []
  dropped := false

/-- `send` of a tab that has not stopped. -/
def send (force : Bool) (p : PresencePublisher State) : PresencePublisher State :=
  if p.inFlight then { p with queued := some (force || p.queued = some true) }
  else if !force ∧ p.lastSent = some p.localState then { p with dropped := false }
  else
    { p with
      dropped := false
      lastSent := some p.localState
      inFlight := true
      puts := p.puts ++ [⟨p.localState, none⟩] }

/-- What an answer changes, before the next send. -/
def settle (answer : PutAnswer) (now : Nat) (p : PresencePublisher State) :
    PresencePublisher State :=
  let p := { p with inFlight := false, queued := none }
  match answer with
  | .ok => p
  | .failed => { p with lastSent := none }
  | .tooManyRequests => { p with lastSent := none, pausedUntil := now + 10000 }

/-- The request with the number is answered. -/
def answered (stopped : Bool) (i : Nat) (answer : PutAnswer) (now : Nat)
    (p : PresencePublisher State) : PresencePublisher State :=
  match p.puts[i]? with
  | none => p
  | some put =>
      if put.answer.isSome then p
      else
        let settled := settle answer now
          { p with puts := p.puts.set i { put with answer := some answer } }
        match p.queued with
        | none => settled
        | some force => if stopped then settled else settled.send force

/-- The listener of local changes. -/
def changed (stopped pointer : Bool) (state : State) (now : Nat) (p : PresencePublisher State) :
    PresencePublisher State :=
  let p := { p with localState := state }
  if stopped then p
  else if pointer ∧ now < p.pausedUntil then { p with dropped := true }
  else { p with throttle := p.throttle.request (if pointer then 100 else 300) now }

def throttleFires (now : Nat) (p : PresencePublisher State) : PresencePublisher State :=
  match p.throttle.due with
  | none => p
  | some due => if due ≤ now then { p with throttle := p.throttle.fire now }.send false else p

end PresencePublisher

/-! ### Connection -/

/-- The event stream of a tab, the snapshot poll, and what the store has of them. -/
structure PresenceConnection (State : Type) where
  connects : List Connect
  stream : Option Nat
  reconnects : List Reconnect
  reconnectTimer : Option Nat
  polling : Bool
  /-- The pending intervals that run `poll`. -/
  polls : List Nat
  pollTimer : Option Nat
  backoff : Nat
  nextId : Nat
  mode : PresenceMode
  sessions : List (PresenceSession State)
  deriving DecidableEq, Repr

namespace PresenceConnection

/-- `reconnectTimer = setTimeout(connect, delay)`. -/
def setReconnect (delay : Nat) (s : PresenceConnection State) : PresenceConnection State :=
  { s with
    reconnects := s.reconnects ++ [⟨s.nextId, delay⟩]
    reconnectTimer := some s.nextId
    nextId := s.nextId + 1 }

def startPolling (s : PresenceConnection State) : PresenceConnection State :=
  if s.polling then s.setReconnect 60000
  else
    { s with
      polling := true
      mode := .poll
      polls := s.polls ++ [s.nextId]
      pollTimer := some s.nextId
      nextId := s.nextId + 1 }
    |>.setReconnect 60000

def stopPolling (s : PresenceConnection State) : PresenceConnection State :=
  if s.polling then
    { s with polling := false, polls := s.polls.filter (fun id => some id ≠ s.pollTimer) }
  else s

/-- The begin of `connect`. -/
def connect (s : PresenceConnection State) : PresenceConnection State :=
  { s with
    reconnectTimer := none
    connects := s.connects ++ [⟨s.nextId, .opening⟩]
    stream := some s.nextId
    nextId := s.nextId + 1 }

/-- The `finally` of a run of `connect`, which returns. -/
def endConnect (id : Nat) (s : PresenceConnection State) : PresenceConnection State :=
  { s with
    connects := s.connects.filter (fun c => c.id ≠ id)
    stream := if s.stream = some id then none else s.stream }

/-- What follows in a tab that has not stopped. -/
def retry (s : PresenceConnection State) : PresenceConnection State :=
  if s.polling then s.setReconnect 60000
  else
    { s with mode := .off, sessions := [], backoff := min (s.backoff * 2) 30000 }
    |>.setReconnect s.backoff

/-- The stream of a run of `connect` ended, or failed. -/
def lost (stopped : Bool) (id : Nat) (s : PresenceConnection State) : PresenceConnection State :=
  if stopped then s.endConnect id else (s.endConnect id).retry

/-- The run of `connect` with the number. -/
def connect? (id : Nat) (s : PresenceConnection State) : Option Connect :=
  s.connects.find? (fun c => c.id = id)

/-- `openDriveEvents` answers a run; that of a tab that has stopped was aborted. -/
def opened (stopped : Bool) (id : Nat) (answer : StreamOpened) (s : PresenceConnection State) :
    PresenceConnection State :=
  match s.connect? id with
  | some ⟨_, .opening⟩ =>
      if stopped then s.lost true id
      else
        match answer with
        | .tooMany => s.startPolling.endConnect id
        | .failed => s.lost false id
        | .ok => { s with
            connects := s.connects.map (fun c =>
              if c.id = id then { c with phase := .reading } else c) }
  | _ => s

/-- `onFrame`, apart from the send that a `ready` frame asks for. -/
def onFrame (userId : Text) (frame : StreamFrame State) (s : PresenceConnection State) :
    PresenceConnection State :=
  match frame with
  | .ready _ _ => { { s with backoff := 1000 }.stopPolling with mode := .stream }
  | frame => { s with sessions := receive userId s.sessions frame }

/-- The stream that a run reads is at its end, is aborted for its silence, or fails. -/
def streamEnded (stopped : Bool) (id : Nat) (s : PresenceConnection State) :
    PresenceConnection State :=
  match s.connect? id with
  | some _ => s.lost stopped id
  | none => s

/-- A timeout of `connect` is over; `stop` clears it. -/
def reconnectFires (id : Nat) (s : PresenceConnection State) : PresenceConnection State :=
  if s.reconnects.any (fun t => t.id = id) then
    { s with reconnects := s.reconnects.filter (fun t => t.id ≠ id) }.connect
  else s

/-- A request of `poll` is answered. -/
def polled (stopped : Bool) (userId : Text) (sessions : List (PresenceSession State))
    (s : PresenceConnection State) : PresenceConnection State :=
  if !stopped ∧ s.polling then
    { s with sessions := sessions.filter (fun session => session.userId ≠ userId) }
  else s

def start : PresenceConnection State :=
  connect ⟨[], none, [], none, false, [], none, 1000, 0, .off, []⟩

def stop (s : PresenceConnection State) : PresenceConnection State :=
  { s with
    reconnects := s.reconnects.filter (fun t => some t.id ≠ s.reconnectTimer)
    polls := s.polls.filter (fun id => some id ≠ s.pollTimer)
    mode := .off
    sessions := [] }

end PresenceConnection

/-! ### Runs -/

structure PresenceTab (State : Type) where
  userId : Text
  stopped : Bool
  publisher : PresencePublisher State
  connection : PresenceConnection State
  deriving DecidableEq, Repr

inductive TabAction (State : Type) where
  | changed (pointer : Bool) (state : State)
  | throttleFires
  | putAnswered (i : Nat) (answer : PutAnswer)
  | heartbeat
  | pageHidden
  /-- A page is shown again that was kept. -/
  | pageShown
  | opened (id : Nat) (answer : StreamOpened)
  | frameRead (id : Nat) (frame : StreamFrame State)
  | streamEnded (id : Nat)
  | reconnectFires (id : Nat)
  | polled (sessions : List (PresenceSession State))
  | stop
  deriving DecidableEq, Repr

namespace PresenceTab

variable [DecidableEq State]

/-- `startPresence`. -/
def start (userId : Text) (localState : State) (now : Nat) : PresenceTab State :=
  ⟨userId, false, .start localState now, .start⟩

def send (force : Bool) (s : PresenceTab State) : PresenceTab State :=
  if s.stopped then s else { s with publisher := s.publisher.send force }

def pageHidden (s : PresenceTab State) : PresenceTab State :=
  if s.stopped then s else { s with publisher := { s.publisher with lastSent := none } }

/-- A run reads a frame; no read of a tab that has stopped succeeds. -/
def frameRead (id : Nat) (frame : StreamFrame State) (s : PresenceTab State) : PresenceTab State :=
  match s.connection.connect? id with
  | some ⟨_, .reading⟩ =>
      if s.stopped then s
      else
        let read := { s with connection := s.connection.onFrame s.userId frame }
        match frame with
        | .ready _ _ => read.send true
        | _ => read
  | _ => s

/-- The cleanup of the effect; the abort of the stream lets its run fail. -/
def stop (s : PresenceTab State) : PresenceTab State :=
  if s.stopped then s
  else
    { s with
      stopped := true
      publisher := { s.publisher with throttle := s.publisher.throttle.cancel }
      connection := s.connection.stop }

def step (s : PresenceTab State) (now : Nat) : TabAction State → PresenceTab State
  | .changed pointer state =>
      { s with publisher := s.publisher.changed s.stopped pointer state now }
  | .throttleFires => { s with publisher := s.publisher.throttleFires now }
  | .putAnswered i answer => { s with publisher := s.publisher.answered s.stopped i answer now }
  | .heartbeat => s.send true
  | .pageHidden => s.pageHidden
  | .pageShown => s.send true
  | .opened id answer => { s with connection := s.connection.opened s.stopped id answer }
  | .frameRead id frame => s.frameRead id frame
  | .streamEnded id => { s with connection := s.connection.streamEnded s.stopped id }
  | .reconnectFires id => { s with connection := s.connection.reconnectFires id }
  | .polled sessions => { s with connection := s.connection.polled s.stopped s.userId sessions }
  | .stop => s.stop

/-- Actions one after the other, each with the time of the clock. -/
def run (actions : List (Nat × TabAction State)) (s : PresenceTab State) : PresenceTab State :=
  actions.foldl (fun s action => s.step action.1 action.2) s

end PresenceTab

end

end AgentFs

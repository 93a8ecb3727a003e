import AgentFs.Lib.Listeners
import AgentFs.Presence.Registry

/-!
# Event streams

`events/bus.ts`, the listeners of `presence/registry.ts` and `routes/events.ts`: a user opens a
stream of a drive, which is sent the events of the drive and, if the client asked for presence,
a snapshot of the sessions and every change of them.  A stream is the listener with its number,
and its frames are the writes that were chained to its `pending` promise, in this order.
-/

namespace AgentFs

section

variable {State : Type}

/-! ### Events of a drive -/

inductive FileOperation where
  | write
  | edit
  | append
  | delete
  | revert
  deriving DecidableEq, Repr

inductive CommentAction where
  | created
  | updated
  | resolved
  | reopened
  | deleted
  deriving DecidableEq, Repr

inductive DriveEvent where
  | fileChanged (driveId path : Text) (version : Nat) (operation : FileOperation) (actor : Text)
      (time : Nat)
  | commentChanged (driveId path commentId : Text) (parentId : Option Text)
      (action : CommentAction) (actor : Text) (time : Nat)
  deriving DecidableEq, Repr

def DriveEvent.driveId : DriveEvent → Text
  | .fileChanged driveId _ _ _ _ _ => driveId
  | .commentChanged driveId _ _ _ _ _ _ => driveId

/-! ### Streams -/

/-- What is written to a stream. -/
inductive StreamFrame (State : Type) where
  | ready (driveId : Text) (time : Nat)
  | snapshot (sessions : List (PresenceSession State))
  | presence (event : PresenceEvent State)
  | drive (event : DriveEvent)
  | ping
  deriving DecidableEq, Repr

structure EventStream (State : Type) where
  userId : Text
  driveId : Text
  /-- `withPresence`. -/
  presence : Bool
  /-- The release function that `bind` returned. -/
  binding : Option Nat
  /-- The set of listeners that the subscription to the events of the drive was put into. -/
  listening : Option Nat
  /-- The same of the subscription to the presence of the drive. -/
  watching : Option Nat
  cleaned : Bool
  released : Bool
  frames : List (StreamFrame State)
  deriving DecidableEq, Repr

def EventStream.write (frame : StreamFrame State) (stream : EventStream State) :
    EventStream State :=
  { stream with frames := stream.frames ++ [frame] }

/-- The routes, with the streams in the order in which they were opened. -/
structure EventRoutes (State : Type) where
  /-- How many streams a user has. -/
  streams : OrderedMap Text Nat
  opened : List (EventStream State)
  /-- The listeners of `subscribeDrive`. -/
  listeners : Listeners Text
  /-- The listeners of the presence registry. -/
  watchers : Listeners Text
  registry : PresenceRegistry State

def maxStreamsPerUser : Nat := 8

def EventRoutes.new : EventRoutes State :=
  ⟨.empty, [], .new, .new, .empty⟩

/-- Write a frame to streams, one after the other. -/
def deliver (frame : StreamFrame State) :
    List Nat → List (EventStream State) → List (EventStream State)
  | [], opened => opened
  | i :: targets, opened => deliver frame targets (opened.modify i (EventStream.write frame))

/-- `publishDriveEvent`. -/
def EventRoutes.publishDriveEvent (event : DriveEvent) (s : EventRoutes State) :
    EventRoutes State :=
  { s with opened := deliver (.drive event) (s.listeners.subscribers event.driveId) s.opened }

/-- `publish` of the registry. -/
def EventRoutes.publish (s : EventRoutes State) (event : PresenceEvent State) :
    EventRoutes State :=
  { s with opened := deliver (.presence event) (s.watchers.subscribers event.driveId) s.opened }

/-- What a call of the registry does. -/
def EventRoutes.presenceEffect (effect : PresenceEffect State) (s : EventRoutes State) :
    EventRoutes State :=
  effect.2.foldl EventRoutes.publish { s with registry := effect.1 }

/-- `release`: give the slot of a stream back, once. -/
def EventRoutes.releaseSlot (i : Nat) (s : EventRoutes State) : EventRoutes State :=
  match s.opened[i]? with
  | none => s
  | some stream =>
      if stream.released then s
      else
        let remaining := (s.streams.get stream.userId).getD 1 - 1
        { s with
          opened := s.opened.modify i (fun stream => { stream with released := true })
          streams :=
            if remaining = 0 then s.streams.delete stream.userId
            else s.streams.set stream.userId remaining }

def EventRoutes.unsubscribe (i : Nat) (stream : EventStream State) (s : EventRoutes State) :
    EventRoutes State :=
  match stream.listening with
  | none => s
  | some set => { s with listeners := s.listeners.unsubscribe stream.driveId set i }

def EventRoutes.unsubscribePresence (i : Nat) (stream : EventStream State)
    (s : EventRoutes State) : EventRoutes State :=
  match stream.watching with
  | none => s
  | some set => { s with watchers := s.watchers.unsubscribe stream.driveId set i }

def EventRoutes.unbind (stream : EventStream State) (now : Nat) (s : EventRoutes State) :
    EventRoutes State :=
  match stream.binding with
  | none => s
  | some index => s.presenceEffect (s.registry.release index now)

/-- `cleanup` of a stream, once: what the client or a failed check ends. -/
def EventRoutes.cleanup (i now : Nat) (s : EventRoutes State) : EventRoutes State :=
  match s.opened[i]? with
  | none => s
  | some stream =>
      if stream.cleaned then s
      else
        ((({ s with opened := s.opened.modify i (fun stream => { stream with cleaned := true }) }
          |>.unsubscribe i stream) |>.unsubscribePresence i stream) |>.unbind stream now)
          |>.releaseSlot i

/-! ### Requests -/

/-- A request of an event stream. -/
structure StreamRequest where
  userId : Text
  /-- The drive that `resolveContext` answers, unless it throws. -/
  access : Option Text
  /-- The client asks for presence, and the server has it. -/
  presence : Bool
  /-- The session id, if there is a valid one. -/
  sessionId : Option Text
  /-- The client is gone already. -/
  aborted : Bool
  deriving DecidableEq, Repr

inductive StreamAnswer where
  | denied
  /-- 429 `RATE_LIMITED`. -/
  | tooManyStreams
  | refused (error : PresenceError)
  | streaming (i : Nat)
  deriving DecidableEq, Repr

/-- Bind the session of a request; the answer has the number of the release function. -/
def EventRoutes.bindSession (request : StreamRequest) (driveId : Text) (now : Nat)
    (s : EventRoutes State) : Except PresenceError (PresenceRegistry State × Option Nat) :=
  match request.presence, request.sessionId with
  | true, some sessionId =>
      match s.registry.bind driveId sessionId request.userId now with
      | .error e => .error e
      | .ok effect => .ok (effect.1, some s.registry.releases.length)
  | _, _ => .ok (s.registry, none)

/-- The stream of a request. -/
def StreamRequest.stream (request : StreamRequest) (driveId : Text)
    (binding listening watching : Option Nat) (frames : List (StreamFrame State)) :
    EventStream State where
  userId := request.userId
  driveId := driveId
  presence := request.presence
  binding := binding
  listening := listening
  watching := watching
  cleaned := false
  released := false
  frames := frames

/-- Start the stream with the next number: the first frames and the subscriptions. -/
def EventRoutes.start (request : StreamRequest) (driveId : Text) (binding : Option Nat) (now : Nat)
    (s : EventRoutes State) : EventRoutes State :=
  let i := s.opened.length
  let (listeners, set) := s.listeners.subscribe driveId i
  let (watchers, watching) :=
    if request.presence then
      let (watchers, set) := s.watchers.subscribe driveId i
      (watchers, some set)
    else (s.watchers, none)
  { s with
    listeners := listeners
    watchers := watchers
    opened := s.opened ++ [request.stream driveId binding (some set) watching (.ready driveId now ::
      if request.presence then [.snapshot (s.registry.snapshot driveId)] else [])] }

/-- A stream whose client is gone before it starts. -/
def EventRoutes.startAborted (request : StreamRequest) (driveId : Text) (binding : Option Nat)
    (now : Nat) (s : EventRoutes State) : EventRoutes State :=
  { s with opened := s.opened ++ [request.stream driveId binding none none []] }
    |>.cleanup s.opened.length now

/-- `GET /:orgId/drives/:driveId/events`. -/
def EventRoutes.openStream (request : StreamRequest) (now : Nat) (s : EventRoutes State) :
    EventRoutes State × StreamAnswer :=
  match request.access with
  | none => (s, .denied)
  | some driveId =>
      let count := (s.streams.get request.userId).getD 0
      if count ≥ maxStreamsPerUser then (s, .tooManyStreams)
      else
        match s.bindSession request driveId now with
        | .error e => (s, .refused e)
        | .ok (registry, binding) =>
            let counted : EventRoutes State :=
              { s with registry := registry, streams := s.streams.set request.userId (count + 1) }
            (if request.aborted then counted.startAborted request driveId binding now
              else counted.start request driveId binding now,
              .streaming s.opened.length)

/-- The timer of a stream: a ping while the key and the access are good, else the end. -/
def EventRoutes.heartbeat (i : Nat) (authorized : Bool) (now : Nat) (s : EventRoutes State) :
    EventRoutes State :=
  match s.opened[i]? with
  | none => s
  | some stream =>
      if stream.cleaned then s
      else if authorized then { s with opened := s.opened.modify i (EventStream.write .ping) }
      else s.cleanup i now

/-! ### Runs -/

inductive StreamAction (State : Type) where
  | openStream (request : StreamRequest)
  | upsert (driveId sessionId : Text) (user : PresenceUser) (state : State)
  | remove (driveId sessionId userId : Text)
  | sweep
  | publish (event : DriveEvent)
  | heartbeat (i : Nat) (authorized : Bool)
  | abort (i : Nat)

def EventRoutes.step [DecidableEq State] (s : EventRoutes State) (now : Nat) :
    StreamAction State → EventRoutes State
  | .openStream request => (s.openStream request now).1
  | .upsert driveId sessionId user state =>
      s.presenceEffect (s.registry.call now (.upsert driveId sessionId user state))
  | .remove driveId sessionId userId =>
      s.presenceEffect (s.registry.call now (.remove driveId sessionId userId))
  | .sweep => s.presenceEffect (s.registry.call now .sweep)
  | .publish event => s.publishDriveEvent event
  | .heartbeat i authorized => s.heartbeat i authorized now
  | .abort i => s.cleanup i now

/-- Actions one after the other, each with the time of the clock. -/
def EventRoutes.run [DecidableEq State] (actions : List (Nat × StreamAction State))
    (s : EventRoutes State) : EventRoutes State :=
  actions.foldl (fun s action => s.step action.1 action.2) s

/-! ### The client -/

/-- What the presence store of a tab makes of a frame: `setSessions`, `upsertSession` and
`removeSession`, which keep no session of the user of the tab. -/
def receive (userId : Text) (sessions : List (PresenceSession State)) :
    StreamFrame State → List (PresenceSession State)
  | .snapshot snapshot => snapshot.filter (fun s => s.userId ≠ userId)
  | .presence (.updated _ session _) =>
      if session.userId = userId then sessions
      else sessions.filter (fun s => s.sessionId ≠ session.sessionId) ++ [session]
  | .presence (.left _ sessionId _ _) =>
      if sessions.any (fun s => s.sessionId = sessionId) then
        sessions.filter (fun s => s.sessionId ≠ sessionId)
      else sessions
  | .ready _ _ => sessions
  | .drive _ => sessions
  | .ping => sessions

/-- The sessions that a tab shows after the frames. -/
def shownSessions (userId : Text) (frames : List (StreamFrame State)) :
    List (PresenceSession State) :=
  frames.foldl (receive userId) []

end

end AgentFs

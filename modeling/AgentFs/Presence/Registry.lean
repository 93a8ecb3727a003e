import AgentFs.Lib.Table
import AgentFs.Paths

/-!
# The presence registry

`presence/registry.ts`: who is looking at which file of a drive.  A session has an entry from
its first `upsert` or `bind` on, and keeps it while it has a state or a stream is bound to it.
The release functions that `bind` returns keep a reference to the entry, so that an entry is a
row with a number, and `attached` says whether the map of its drive still holds it.
-/

namespace AgentFs

open Tabular

section

variable {State : Type}

/-- A session as it is published; `updatedAt` is in milliseconds. -/
structure PresenceSession (State : Type) where
  state : State
  sessionId : Text
  userId : Text
  email : Text
  displayName : Option Text
  updatedAt : Nat
  deriving DecidableEq, Repr

inductive PresenceEvent (State : Type) where
  | updated (driveId : Text) (session : PresenceSession State) (time : Nat)
  | left (driveId sessionId userId : Text) (time : Nat)
  deriving DecidableEq, Repr

def PresenceEvent.driveId : PresenceEvent State → Text
  | .updated driveId _ _ => driveId
  | .left driveId _ _ _ => driveId

/-- An entry object. -/
structure PresenceEntry (State : Type) where
  ref : Nat
  driveId : Text
  sessionId : Text
  userId : Text
  session : Option (PresenceSession State)
  state : Option State
  lastSeen : Nat
  bindings : Int
  /-- The map of the drive holds the entry. -/
  attached : Bool
  deriving DecidableEq, Repr

/-- A release function. -/
structure PresenceRelease where
  ref : Nat
  driveId : Text
  sessionId : Text
  userId : Text
  released : Bool
  deriving DecidableEq, Repr

/-- The entries in the order in which they were made, and the releases. -/
structure PresenceRegistry (State : Type) where
  entries : List (PresenceEntry State)
  releases : List PresenceRelease
  deriving DecidableEq, Repr

inductive PresenceError where
  /-- `EditConflictError`. -/
  | editConflict (message : String)
  /-- `PresenceLimitError`. -/
  | rateLimited (message : String)
  deriving DecidableEq, Repr

def sessionOfAnotherUser : PresenceError :=
  .editConflict "Presence session belongs to another user"

def tooManySessions : PresenceError :=
  .rateLimited "Too many presence sessions for this user and drive"

def maxPresenceSessions : Nat := 32

def presenceTtlMs : Nat := 45000

/-- What a call leaves, and what it publishes. -/
abbrev PresenceEffect (State : Type) := PresenceRegistry State × List (PresenceEvent State)

/-- The entry has the key, and the map of the drive holds it. -/
def PresenceEntry.HeldAt (driveId sessionId : Text) (e : PresenceEntry State) : Prop :=
  e.attached = true ∧ e.driveId = driveId ∧ e.sessionId = sessionId

instance (driveId sessionId : Text) (e : PresenceEntry State) :
    Decidable (e.HeldAt driveId sessionId) :=
  inferInstanceAs (Decidable (_ ∧ _ ∧ _))

/-- The entry of a session. -/
def PresenceRegistry.find (r : PresenceRegistry State) (driveId sessionId : Text) :
    Option (PresenceEntry State) :=
  r.entries.find? (fun e => e.HeldAt driveId sessionId)

/-- Change the entry with the number. -/
def PresenceRegistry.update (r : PresenceRegistry State) (ref : Nat)
    (f : PresenceEntry State → PresenceEntry State) : PresenceRegistry State :=
  { r with entries := r.entries.map (fun e => if e.ref = ref then f e else e) }

/-- Put a new entry into the map of its drive. -/
def PresenceRegistry.create (r : PresenceRegistry State) (driveId sessionId userId : Text)
    (now : Nat) : PresenceRegistry State :=
  { r with entries := r.entries ++
      [⟨r.entries.length, driveId, sessionId, userId, none, none, now, 0, true⟩] }

/-- The entries of a user's sessions in a drive. -/
def PresenceRegistry.sessionsOf (r : PresenceRegistry State) (driveId userId : Text) :
    List (PresenceEntry State) :=
  r.entries.filter (fun e =>
    e.attached = true ∧ e.driveId = driveId ∧ e.session.isSome ∧ e.userId = userId)

def PresenceRegistry.snapshot (r : PresenceRegistry State) (driveId : Text) :
    List (PresenceSession State) :=
  (r.entries.filter (fun e => e.attached = true ∧ e.driveId = driveId)).filterMap (·.session)

/-- A user, with the display name that `getDisplayName` answers for them. -/
structure PresenceUser where
  id : Text
  email : Text
  displayName : Option Text
  deriving DecidableEq, Repr

/-- The session that an `upsert` makes. -/
def PresenceEntry.newSession (e : PresenceEntry State) (user : PresenceUser) (state : State)
    (now : Nat) : PresenceSession State where
  state := state
  sessionId := e.sessionId
  userId := user.id
  email := user.email
  displayName := match e.session with
    | some session => session.displayName
    | none => user.displayName
  updatedAt := now

/-- The rest of `upsert`, once the entry is there. -/
def PresenceRegistry.upsertEntry [DecidableEq State] (r : PresenceRegistry State)
    (e : PresenceEntry State) (user : PresenceUser) (state : State) (now : Nat) :
    PresenceEffect State :=
  if e.session.isSome ∧ e.state = some state then
    (r.update e.ref (fun e => { e with lastSeen := now }), [])
  else
    (r.update e.ref (fun e =>
        { e with
          lastSeen := now
          state := some state
          session := some (e.newSession user state now) }),
      [.updated e.driveId (e.newSession user state now) now])

def PresenceRegistry.upsert [DecidableEq State] (r : PresenceRegistry State) (driveId sessionId : Text)
    (user : PresenceUser) (state : State) (now : Nat) :
    Except PresenceError (PresenceEffect State) :=
  let entry := r.find driveId sessionId
  if ∃ e ∈ entry, e.userId ≠ user.id then .error sessionOfAnotherUser
  else if (entry.bind (·.session)).isNone ∧
      (r.sessionsOf driveId user.id).length ≥ maxPresenceSessions then .error tooManySessions
  else
    match entry with
    | some e => .ok (r.upsertEntry e user state now)
    | none =>
        .ok ((r.create driveId sessionId user.id now).upsertEntry
          ⟨r.entries.length, driveId, sessionId, user.id, none, none, now, 0, true⟩ user state now)

/-- What `remove` makes of an entry. -/
def PresenceEntry.removed (e : PresenceEntry State) : PresenceEntry State :=
  { e with session := none, state := none, attached := e.bindings ≠ 0 }

def PresenceEntry.addBindings (n : Int) (e : PresenceEntry State) : PresenceEntry State :=
  { e with bindings := e.bindings + n }

def PresenceRegistry.remove (r : PresenceRegistry State) (driveId sessionId userId : Text)
    (now : Nat) : Except PresenceError (PresenceEffect State) :=
  match r.find driveId sessionId with
  | none => .ok (r, [])
  | some e =>
      if e.userId ≠ userId then .error sessionOfAnotherUser
      else .ok (r.update e.ref PresenceEntry.removed,
        if e.session.isSome then [.left driveId sessionId userId now] else [])

def PresenceRegistry.bind (r : PresenceRegistry State) (driveId sessionId userId : Text)
    (now : Nat) : Except PresenceError (PresenceEffect State) :=
  let entry := r.find driveId sessionId
  if ∃ e ∈ entry, e.userId ≠ userId then .error sessionOfAnotherUser
  else
    let (made, ref) := match entry with
      | some e => (r, e.ref)
      | none => (r.create driveId sessionId userId now, r.entries.length)
    let bound := made.update ref (PresenceEntry.addBindings 1)
    .ok ({ bound with releases := r.releases ++ [⟨ref, driveId, sessionId, userId, false⟩] }, [])

/-- Call a release function.  An error of its `remove` leaves the count as it is. -/
def PresenceRegistry.release (r : PresenceRegistry State) (index now : Nat) :
    PresenceEffect State :=
  match r.releases[index]? with
  | none => (r, [])
  | some h =>
      if h.released then (r, [])
      else
        let released : PresenceRegistry State :=
          { r.update h.ref (PresenceEntry.addBindings (-1)) with
            releases := r.releases.set index { h with released := true } }
        if ∃ e ∈ released.entries, e.ref = h.ref ∧ e.bindings = 0 then
          match released.remove h.driveId h.sessionId h.userId now with
          | .ok effect => effect
          | .error _ => (released, [])
        else (released, [])

/-- The entry has a session without a stream that was not seen for the time to live. -/
def PresenceEntry.Expired (now : Nat) (e : PresenceEntry State) : Prop :=
  e.attached = true ∧ e.session.isSome ∧ e.bindings = 0 ∧ e.lastSeen + presenceTtlMs < now

instance (now : Nat) (e : PresenceEntry State) : Decidable (e.Expired now) :=
  inferInstanceAs (Decidable (_ ∧ _ ∧ _ ∧ _))

/-- `remove`, where an error stops nothing. -/
def PresenceRegistry.removeEntry (r : PresenceRegistry State) (e : PresenceEntry State)
    (now : Nat) : PresenceEffect State :=
  match r.remove e.driveId e.sessionId e.userId now with
  | .ok effect => effect
  | .error _ => (r, [])

/-- Remove the entries one after the other. -/
def PresenceRegistry.removeAll (now : Nat) :
    List (PresenceEntry State) → PresenceRegistry State → PresenceEffect State
  | [], r => (r, [])
  | e :: es, r =>
      let (r₁, events₁) := r.removeEntry e now
      let (r₂, events₂) := removeAll now es r₁
      (r₂, events₁ ++ events₂)

/-- `sweep`: removing an entry does not change whether another one has expired. -/
def PresenceRegistry.sweep (r : PresenceRegistry State) (now : Nat) : PresenceEffect State :=
  removeAll now (r.entries.filter (fun e => e.Expired now)) r

/-- A call. -/
inductive PresenceCall (State : Type) where
  | upsert (driveId sessionId : Text) (user : PresenceUser) (state : State)
  | remove (driveId sessionId userId : Text)
  | bind (driveId sessionId userId : Text)
  /-- A call of the release function with the number. -/
  | release (index : Nat)
  | sweep
  deriving DecidableEq, Repr

/-- The effect of a call, if it does not throw. -/
def PresenceRegistry.call? [DecidableEq State] (r : PresenceRegistry State) (now : Nat) :
    PresenceCall State → Except PresenceError (PresenceEffect State)
  | .upsert driveId sessionId user state => r.upsert driveId sessionId user state now
  | .remove driveId sessionId userId => r.remove driveId sessionId userId now
  | .bind driveId sessionId userId => r.bind driveId sessionId userId now
  | .release index => .ok (r.release index now)
  | .sweep => .ok (r.sweep now)

/-- The effect of a call; one that throws changes nothing. -/
def PresenceRegistry.call [DecidableEq State] (r : PresenceRegistry State) (now : Nat)
    (call : PresenceCall State) : PresenceEffect State :=
  match r.call? now call with
  | .ok effect => effect
  | .error _ => (r, [])

/-- Calls one after the other, each with the time of the clock. -/
def PresenceRegistry.run [DecidableEq State] :
    List (Nat × PresenceCall State) → PresenceRegistry State → PresenceEffect State
  | [], r => (r, [])
  | (now, call) :: calls, r =>
      let (r₁, events₁) := r.call now call
      let (r₂, events₂) := run calls r₁
      (r₂, events₁ ++ events₂)

/-- A new registry. -/
def PresenceRegistry.empty : PresenceRegistry State := ⟨[], []⟩

/-- What a client makes of an event. -/
def replayEvent (sessions : List (PresenceSession State)) :
    PresenceEvent State → List (PresenceSession State)
  | .updated _ session _ => sessions.filter (fun s => s.sessionId ≠ session.sessionId) ++ [session]
  | .left _ sessionId _ _ => sessions.filter (fun s => s.sessionId ≠ sessionId)

/-- Replay the events of a drive over a snapshot of it. -/
def replayEvents (driveId : Text) (sessions : List (PresenceSession State))
    (events : List (PresenceEvent State)) : List (PresenceSession State) :=
  (events.filter (fun event => event.driveId = driveId)).foldl replayEvent sessions

end

end AgentFs

import AgentFs.Presence.ClientView
import AgentFs.Presence.StreamLaw

/-!
# Runs of event streams

The law of the streams after every run, what the tab of an open stream shows, and which events of
the drive it was sent.
-/

namespace AgentFs

section

variable {State : Type}

/-! ### Opening a stream -/

/-- The registry after the session of a request is bound, if it is. -/
theorem bindSession_cases {s : EventRoutes State} {request : StreamRequest} {driveId : Text}
    {now : Nat} {registry : PresenceRegistry State} {binding : Option Nat}
    (h : s.bindSession request driveId now = .ok (registry, binding)) :
  (registry = s.registry ∧ binding = none) ∨
    ∃ sessionId, s.registry.bind driveId sessionId request.userId now = .ok (registry, []) ∧
      binding = some s.registry.releases.length
  := by
  unfold EventRoutes.bindSession at h
  split at h
  case h_1 sessionId _ _ =>
    split at h
    case h_1 => cases h
    case h_2 effect heffect =>
      cases h
      obtain ⟨-, -, hevents⟩ := releases_bind heffect
      refine .inr ⟨sessionId, ?_, rfl⟩
      rw [heffect, ← hevents]
  case h_2 =>
    cases h
    exact .inl ⟨rfl, rfl⟩

/-- The next stream is added, with its slot, its subscriptions and its binding. -/
theorem StreamsSound.concat {s : EventRoutes State} (h : StreamsSound s) {request : StreamRequest}
    {driveId : Text} {now : Nat} {registry : PresenceRegistry State} {binding : Option Nat}
    (hbind : s.bindSession request driveId now = .ok (registry, binding))
    (hfree : ¬ (s.streams.get request.userId).getD 0 ≥ maxStreamsPerUser)
    {listening watching : Option Nat} {frames : List (StreamFrame State)}
    {listeners watchers : Listeners Text}
    (hlistening : Subscriptions EventStream.listening listeners
      (s.opened ++ [request.stream driveId binding listening watching frames]))
    (hwatching : Subscriptions EventStream.watching watchers
      (s.opened ++ [request.stream driveId binding listening watching frames])) :
  StreamsSound
    { streams := s.streams.set request.userId ((s.streams.get request.userId).getD 0 + 1)
      opened := s.opened ++ [request.stream driveId binding listening watching frames]
      listeners := listeners
      watchers := watchers
      registry := registry }
  where
    registry := by
      obtain ⟨rfl, -⟩ | ⟨sessionId, hbound, -⟩ := bindSession_cases hbind
      · exact h.registry
      · exact (bind_step h.registry hbound).sound h.registry
    listeners := hlistening
    watchers := hwatching
    bindings := by
      obtain ⟨rfl, rfl⟩ | ⟨sessionId, hbound, rfl⟩ := bindSession_cases hbind
      · exact h.bindings.concat_none rfl
      · obtain ⟨ref, hreleases, -⟩ := releases_bind hbound
        dsimp only at hreleases ⊢
        rw [hreleases]
        exact h.bindings.concat_some rfl rfl rfl rfl
    slots := h.slots.concat (request.stream driveId binding listening watching frames) rfl hfree
    flags := by
      intro i stream hi
      obtain hi | ⟨-, rfl⟩ := getElem?_concat_cases hi
      · exact h.flags i stream hi
      · rfl

/-- The stream listens to its drive, and watches it exactly if the client asked for that. -/
def EventStream.Started (stream : EventStream State) : Prop :=
  stream.cleaned = false →
    stream.listening.isSome = true ∧ stream.watching.isSome = stream.presence

theorem EventStream.Started.of_core {stream stream' : EventStream State} (h : stream.Started)
    (hcore : stream'.core = stream.core) :
  stream'.Started
  := by
  have hstarted : ∀ stream : EventStream State, stream.core.Started ↔ stream.Started :=
    fun _ => Iff.rfl
  rw [← hstarted, hcore, hstarted]
  exact h

/-- All open streams but the one with the number are started. -/
def StartedBut (i : Nat) (opened : List (EventStream State)) : Prop :=
  ∀ (j : Nat) (stream : EventStream State), j ≠ i → opened[j]? = some stream → stream.Started

/-- The open streams are started. -/
def AllStarted (opened : List (EventStream State)) : Prop :=
  ∀ (i : Nat) (stream : EventStream State), opened[i]? = some stream → stream.Started

theorem AllStarted.sameStreams {opened opened' : List (EventStream State)} (h : AllStarted opened)
    (hsame : SameStreams opened opened') :
  AllStarted opened'
  := by
  intro i stream' hi
  obtain ⟨stream, hstream, hcore⟩ := hsame.getElem? hi
  exact (h i stream hstream).of_core hcore

theorem AllStarted.concat {opened : List (EventStream State)} (h : AllStarted opened)
    {stream : EventStream State} (hstarted : stream.Started) :
  AllStarted (opened ++ [stream])
  := by
  intro i stream' hi
  obtain hi | ⟨-, rfl⟩ := getElem?_concat_cases hi
  · exact h i stream' hi
  · exact hstarted

theorem AllStarted.concat_but {opened : List (EventStream State)} (h : AllStarted opened)
    (stream : EventStream State) :
  StartedBut opened.length (opened ++ [stream])
  := by
  intro i stream' hne hi
  obtain hi | ⟨rfl, -⟩ := getElem?_concat_cases hi
  · exact h i stream' hi
  · exact absurd rfl hne

/-- What a request of a stream does. -/
inductive Opening (s : EventRoutes State) (request : StreamRequest) (now : Nat) :
    EventRoutes State → Prop where
  /-- It is answered without a stream. -/
  | refused : Opening s request now s
  /-- Its client is gone, so that the new stream is cleaned up at once. -/
  | aborted {driveId : Text} {registry : PresenceRegistry State} {binding : Option Nat}
      (hbind : s.bindSession request driveId now = .ok (registry, binding))
      {s' : EventRoutes State}
      (hs' : s' =
        { streams := s.streams.set request.userId ((s.streams.get request.userId).getD 0 + 1)
          opened := s.opened ++ [request.stream driveId binding none none []]
          listeners := s.listeners
          watchers := s.watchers
          registry := registry })
      (hsound : StreamsSound s') :
      Opening s request now (s'.cleanup s.opened.length now)
  | started {driveId : Text} {registry : PresenceRegistry State} {binding : Option Nat}
      (hbind : s.bindSession request driveId now = .ok (registry, binding))
      {s' : EventRoutes State} (set : Nat) (watching : Option Nat)
      (hwatching : watching.isSome = request.presence)
      (hopened : s'.opened = s.opened ++ [request.stream driveId binding (some set) watching
        (.ready driveId now ::
          if request.presence then [.snapshot (registry.snapshot driveId)] else [])])
      (hregistry : s'.registry = registry) (hsound : StreamsSound s') :
      Opening s request now s'

theorem openStream_cases {s : EventRoutes State} (h : StreamsSound s) (request : StreamRequest)
    (now : Nat) :
  Opening s request now (s.openStream request now).1
  := by
  unfold EventRoutes.openStream
  cases haccess : request.access with
  | none => exact .refused
  | some driveId =>
      dsimp only
      split
      case isTrue => exact .refused
      case isFalse hfree =>
        cases hbind : s.bindSession request driveId now with
        | error e => exact .refused
        | ok bound =>
            obtain ⟨registry, binding⟩ := bound
            dsimp only
            split
            case isTrue =>
              apply Opening.aborted hbind rfl
              apply h.concat hbind hfree
              · exact h.listeners.concat_none rfl
              · exact h.watchers.concat_none rfl
            case isFalse =>
              cases hpresence : request.presence with
              | false =>
                  simp only [EventRoutes.start, hpresence, Bool.false_eq_true, if_false]
                  apply Opening.started hbind (s.listeners.subscribe driveId s.opened.length).2 none
                  · rw [hpresence]
                    rfl
                  · simp [hpresence]
                  · rfl
                  · apply h.concat hbind hfree
                    · exact h.listeners.concat_some (request.stream driveId binding _ _ _) rfl rfl
                    · exact h.watchers.concat_none rfl
              | true =>
                  simp only [EventRoutes.start, hpresence, if_true]
                  apply Opening.started hbind (s.listeners.subscribe driveId s.opened.length).2
                    (some (s.watchers.subscribe driveId s.opened.length).2)
                  · rw [hpresence]
                    rfl
                  · simp [hpresence]
                  · rfl
                  · apply h.concat hbind hfree
                    · exact h.listeners.concat_some (request.stream driveId binding _ _ _) rfl rfl
                    · exact h.watchers.concat_some (request.stream driveId binding _ _ _) rfl rfl

/-! ### What a step writes -/

/-- The events of presence that a stream is sent. -/
def EventStream.watches (stream : EventStream State) (events : List (PresenceEvent State)) :
    List (StreamFrame State) :=
  if stream.presence then
    (events.filter (fun event => event.driveId = stream.driveId)).map StreamFrame.presence
  else []

/-- The events of the drive that a stream is sent. -/
def EventStream.listens (stream : EventStream State) (events : List DriveEvent) :
    List (StreamFrame State) :=
  (events.filter (fun event => event.driveId = stream.driveId)).map StreamFrame.drive

/-- An open stream is sent the events, and pings. -/
structure Written (events : List (PresenceEvent State)) (published : List DriveEvent)
    (stream stream' : EventStream State) : Prop where
  core : stream'.core = stream.core
  frames : ∃ n, stream'.frames =
    stream.frames ++ (stream.watches events ++ stream.listens published ++ List.replicate n .ping)

/-- What the streams see of a step. -/
structure Seen (s s' : EventRoutes State) (events : List (PresenceEvent State))
    (published : List DriveEvent) : Prop where
  shown : ShownAs s.registry s'.registry events
  /-- An open stream was open before, or is new. -/
  streams : ∀ (i : Nat) (stream' : EventStream State), s'.opened[i]? = some stream' →
    stream'.cleaned = false →
    (∃ stream, s.opened[i]? = some stream ∧ Written events published stream stream') ∨
      s.opened[i]? = none ∧ ∃ now, stream'.frames = .ready stream'.driveId now ::
        if stream'.presence then [.snapshot (s'.registry.snapshot stream'.driveId)] else []
  /-- No stream is forgotten, and nothing is written to one that has ended. -/
  ended : ∀ (i : Nat) (stream : EventStream State), s.opened[i]? = some stream →
    ∃ stream', s'.opened[i]? = some stream' ∧ (stream.cleaned = true →
      stream'.core = stream.core ∧ stream'.frames = stream.frames)

/-- The frames that the watchers are sent. -/
theorem frames_watched {s : EventRoutes State} (h : StreamsSound s) {i : Nat}
    {stream : EventStream State} (hi : s.opened[i]? = some stream) (hstarted : stream.Started)
    (events : List (PresenceEvent State)) :
  (stream.watched s.watchers events i).frames =
    stream.frames ++ if stream.cleaned then [] else stream.watches events
  := by
  have hmem := h.watchers.mem_subscribers_iff
  unfold EventStream.watched EventStream.watches
  dsimp only
  congr 1
  cases hcleaned : stream.cleaned with
  | true =>
      rw [if_pos rfl, List.map_eq_nil_iff, List.filter_eq_nil_iff]
      intro event _
      rw [decide_eq_true_iff, hmem]
      rintro ⟨stream', hstream', hopen, -⟩
      rw [hi, Option.some_inj] at hstream'
      rw [← hstream', hcleaned] at hopen
      cases hopen
  | false =>
      obtain ⟨-, hwatching⟩ := hstarted hcleaned
      have hwatches : ∀ driveId, i ∈ s.watchers.subscribers driveId ↔
          driveId = stream.driveId ∧ stream.presence = true := by
        intro driveId
        rw [hmem, ← hwatching]
        constructor
        · rintro ⟨stream', hstream', -, hdrive, hset⟩
          rw [hi, Option.some_inj] at hstream'
          subst hstream'
          exact ⟨hdrive.symm, hset⟩
        · rintro ⟨hdrive, hset⟩
          exact ⟨stream, hi, hcleaned, hdrive.symm, hset⟩
      simp only [hwatches, Bool.false_eq_true, if_false]
      cases stream.presence with
      | true => simp
      | false => simp

/-- What a call of the registry shows the streams. -/
theorem Seen.presenceEffect {s : EventRoutes State} (h : StreamsSound s)
    (hstarted : AllStarted s.opened) {effect : PresenceEffect State}
    (hshown : ShownAs s.registry effect.1 effect.2) :
  Seen s (s.presenceEffect effect) effect.2 []
  := by
  have hget := getElem?_publish (s := { s with registry := effect.1 }) effect.2 h.watchers.sound
  obtain ⟨-, -, -, hregistry⟩ := publish_fields effect.2 { s with registry := effect.1 }
  unfold EventRoutes.presenceEffect
  constructor
  · rw [hregistry]
    exact hshown
  · intro i stream' hi hopen
    left
    rw [hget] at hi
    obtain ⟨stream, hstream, rfl⟩ := Option.map_eq_some_iff.mp hi
    refine ⟨stream, hstream, rfl, 0, ?_⟩
    have hframes := frames_watched h hstream (hstarted i stream hstream) effect.2
    rw [show stream.cleaned = false from hopen] at hframes
    rw [if_neg Bool.false_ne_true] at hframes
    apply hframes.trans
    simp [EventStream.listens]
  · intro i stream hi
    refine ⟨stream.watched s.watchers effect.2 i, ?_, fun hcleaned => ⟨rfl, ?_⟩⟩
    · rw [hget, hi]
      rfl
    · have hframes := frames_watched h hi (hstarted i stream hi) effect.2
      rwa [hcleaned, if_pos rfl, List.append_nil] at hframes

theorem Seen.refl (s : EventRoutes State) :
  Seen s s [] []
  where
    shown := .refl _
    streams := by
      intro i stream hi _
      left
      refine ⟨stream, hi, rfl, 0, ?_⟩
      simp [EventStream.watches, EventStream.listens]
    ended := fun i stream hi => ⟨stream, hi, fun _ => ⟨rfl, rfl⟩⟩

/-- What an event of a drive shows the streams. -/
theorem Seen.publishDriveEvent {s : EventRoutes State} (h : StreamsSound s)
    (hstarted : AllStarted s.opened) (event : DriveEvent) :
  Seen s (s.publishDriveEvent event) [] [event]
  := by
  have hget := getElem?_deliver (.drive event) (h.listeners.sound.nodup event.driveId) s.opened
  have hmem := h.listeners.mem_subscribers_iff event.driveId
  constructor
  · exact .refl _
  · intro i stream' hi hopen
    left
    rw [EventRoutes.publishDriveEvent, hget] at hi
    obtain ⟨stream, hstream, rfl⟩ := Option.map_eq_some_iff.mp hi
    have hopen' : stream.cleaned = false := by
      rw [apply_ite EventStream.cleaned] at hopen
      split at hopen
      · exact hopen
      · exact hopen
    have hlistens : i ∈ s.listeners.subscribers event.driveId ↔ event.driveId = stream.driveId := by
      rw [hmem]
      constructor
      · rintro ⟨stream', hstream', -, hdrive, -⟩
        rw [hstream, Option.some_inj] at hstream'
        rw [hstream', hdrive]
      · intro hdrive
        exact ⟨stream, hstream, hopen', hdrive.symm, (hstarted i stream hstream hopen').1⟩
    refine ⟨stream, hstream, ?_, 0, ?_⟩
    · split
      · rfl
      · rfl
    · unfold EventStream.watches EventStream.listens
      split
      case isTrue hi => simp [EventStream.write, hlistens.mp hi]
      case isFalse hi =>
        have hne := mt hlistens.mpr hi
        simp [hne]
  · intro i stream hi
    refine ⟨if i ∈ s.listeners.subscribers event.driveId then stream.write (.drive event)
      else stream, ?_, fun hcleaned => ?_⟩
    · rw [EventRoutes.publishDriveEvent, hget, hi, Option.map_some]
    · have hnot : i ∉ s.listeners.subscribers event.driveId := by
        rw [hmem]
        rintro ⟨stream', hstream', hopen, -⟩
        rw [hi, Option.some_inj] at hstream'
        rw [← hstream', hcleaned] at hopen
        cases hopen
      rw [if_neg hnot]
      exact ⟨rfl, rfl⟩

/-- What a ping shows the streams. -/
theorem Seen.ping {s : EventRoutes State} {i : Nat} {stream : EventStream State}
    (hi : s.opened[i]? = some stream) (hopen : stream.cleaned = false) :
  Seen s { s with opened := s.opened.modify i (EventStream.write .ping) } [] []
  := by
  constructor
  · exact .refl _
  · intro j stream' hj _
    left
    by_cases hne : j = i
    · subst hne
      rw [getElem?_modify_self hi, Option.some_inj] at hj
      subst hj
      refine ⟨stream, hi, rfl, 1, ?_⟩
      simp [EventStream.write, EventStream.watches, EventStream.listens]
    · rw [getElem?_modify_other _ hne] at hj
      refine ⟨stream', hj, rfl, 0, ?_⟩
      simp [EventStream.watches, EventStream.listens]
  · intro j stream' hj
    by_cases hne : j = i
    · subst hne
      refine ⟨_, getElem?_modify_self hi _, fun hcleaned => ?_⟩
      rw [hi, Option.some_inj] at hj
      rw [hj, hcleaned] at hopen
      cases hopen
    · exact ⟨stream', (getElem?_modify_other _ hne _).trans hj, fun _ => ⟨rfl, rfl⟩⟩

/-- What the release function of a stream shows the tabs. -/
theorem unbindEffect_shownAs [DecidableEq State] {r : PresenceRegistry State}
    (hr : PresenceSound r) (stream : EventStream State) (now : Nat) :
  ShownAs r (stream.unbindEffect now r).1 (stream.unbindEffect now r).2
  := by
  unfold EventStream.unbindEffect
  cases stream.binding with
  | none => exact .refl r
  | some index => exact call_shownAs hr now (.release index)

/-- What the end of a stream shows the others. -/
theorem Seen.cleanup_open [DecidableEq State] {s : EventRoutes State} (h : StreamsSound s)
    {i : Nat} (hstarted : StartedBut i s.opened) {stream : EventStream State}
    (hi : s.opened[i]? = some stream) (hopen : stream.cleaned = false) (now : Nat) :
  Seen s (s.cleanup i now) (stream.unbindEffect now s.registry).2 [] ∧
    AllStarted (s.cleanup i now).opened
  := by
  obtain ⟨-, hregistry, ⟨ended, hended, hcleaned⟩, hother⟩ := h.cleanup_open hi hopen now
  have hshown := unbindEffect_shownAs h.registry stream now
  generalize stream.unbindEffect now s.registry = effect at *
  -- The streams that are open afterwards are watchers of the events.
  have hback : ∀ (j : Nat) (stream' : EventStream State),
      (s.cleanup i now).opened[j]? = some stream' → stream'.cleaned = false → j ≠ i ∧
        ∃ old, s.opened[j]? = some old ∧ stream' = old.watched s.watchers effect.2 j := by
    intro j stream' hj hopen'
    have hne : j ≠ i := by
      rintro rfl
      rw [hended, Option.some_inj] at hj
      rw [← hj, hcleaned] at hopen'
      cases hopen'
    rw [hother j hne] at hj
    obtain ⟨old, hold, rfl⟩ := Option.map_eq_some_iff.mp hj
    exact ⟨hne, old, hold, rfl⟩
  refine ⟨?_, ?_⟩
  · constructor
    · rw [hregistry]
      exact hshown
    · intro j stream' hj hopen'
      obtain ⟨hne, old, hold, rfl⟩ := hback j stream' hj hopen'
      have hframes := frames_watched h hold (hstarted j old hne hold) effect.2
      rw [show old.cleaned = false from hopen', if_neg Bool.false_ne_true] at hframes
      refine .inl ⟨old, hold, rfl, 0, ?_⟩
      apply hframes.trans
      simp [EventStream.listens]
    · intro j old hold
      by_cases hne : j = i
      · subst hne
        refine ⟨ended, hended, fun hcleaned' => ?_⟩
        rw [hi, Option.some_inj] at hold
        rw [← hold, hopen] at hcleaned'
        cases hcleaned'
      · refine ⟨old.watched s.watchers effect.2 j, ?_, fun hcleaned' => ⟨rfl, ?_⟩⟩
        · rw [hother j hne, hold]
          rfl
        · have hframes := frames_watched h hold (hstarted j old hne hold) effect.2
          rwa [hcleaned', if_pos rfl, List.append_nil] at hframes
  · intro j stream' hj hopen'
    obtain ⟨hne, old, hold, rfl⟩ := hback j stream' hj hopen'
    exact hstarted j old hne hold hopen'

/-! ### Steps -/

/-- The invariant of the routes and of what is started. -/
structure RoutesSound (s : EventRoutes State) : Prop where
  streams : StreamsSound s
  started : AllStarted s.opened

/-- The events of drives that a step publishes. -/
def StreamAction.published : StreamAction State → List DriveEvent
  | .publish event => [event]
  | _ => []

theorem presenceEffect_step [DecidableEq State] {s : EventRoutes State} (h : RoutesSound s)
    (now : Nat) (call : PresenceCall State)
    (hreleases : (s.registry.call now call).1.releases = s.registry.releases) :
  RoutesSound (s.presenceEffect (s.registry.call now call)) ∧
    Seen s (s.presenceEffect (s.registry.call now call)) (s.registry.call now call).2 []
  := by
  obtain ⟨hsound, -⟩ := call_law h.streams.registry now call
  refine ⟨⟨h.streams.presenceEffect hsound hreleases, ?_⟩, ?_⟩
  · exact h.started.sameStreams (sameStreams_publish _ _)
  · exact Seen.presenceEffect h.streams h.started (call_shownAs h.streams.registry now call)

theorem cleanup_step [DecidableEq State] {s : EventRoutes State} (h : RoutesSound s)
    (i now : Nat) :
  RoutesSound (s.cleanup i now) ∧ ∃ events, Seen s (s.cleanup i now) events []
  := by
  cases hi : s.opened[i]? with
  | none =>
      have hidle : s.cleanup i now = s := by
        unfold EventRoutes.cleanup
        simp only [hi]
      rw [hidle]
      exact ⟨h, [], .refl s⟩
  | some stream =>
      cases hcleaned : stream.cleaned with
      | true =>
          have hidle : s.cleanup i now = s := by
            unfold EventRoutes.cleanup
            simp only [hi, hcleaned, if_true]
          rw [hidle]
          exact ⟨h, [], .refl s⟩
      | false =>
          obtain ⟨hseen, hstarted⟩ := Seen.cleanup_open h.streams
            (fun j stream _ hj => h.started j stream hj) hi hcleaned now
          exact ⟨⟨(h.streams.cleanup_open hi hcleaned now).1, hstarted⟩, _, hseen⟩

/-- The tabs see nothing of a binding. -/
theorem bindSession_shownAs [DecidableEq State] {s : EventRoutes State} (h : StreamsSound s)
    {request : StreamRequest} {driveId : Text} {now : Nat} {registry : PresenceRegistry State}
    {binding : Option Nat} (hbind : s.bindSession request driveId now = .ok (registry, binding)) :
  ShownAs s.registry registry []
  := by
  obtain ⟨rfl, -⟩ | ⟨sessionId, hbound, -⟩ := bindSession_cases hbind
  · exact .refl _
  · have hcall : s.registry.call now (.bind driveId sessionId request.userId) = (registry, []) := by
      simp only [PresenceRegistry.call, PresenceRegistry.call?, hbound]
    have hshown := call_shownAs h.registry now (.bind driveId sessionId request.userId)
    rw [hcall] at hshown
    exact hshown

theorem openStream_step [DecidableEq State] {s : EventRoutes State} (h : RoutesSound s)
    (request : StreamRequest) (now : Nat) :
  RoutesSound (s.openStream request now).1 ∧
    ∃ events, Seen s (s.openStream request now).1 events []
  := by
  generalize hs'' : (s.openStream request now).1 = s''
  have hcases := openStream_cases h.streams request now
  rw [hs''] at hcases
  cases hcases with
  | refused => exact ⟨h, [], .refl s⟩
  | @aborted driveId registry binding hbind s' hs' hsound =>
      have hopened : s'.opened = s.opened ++ [request.stream driveId binding none none []] := by
        rw [hs']
      have hi : s'.opened[s.opened.length]? =
          some (request.stream driveId binding none none []) := by
        rw [hopened, List.getElem?_concat_length]
      have hbut : StartedBut s.opened.length s'.opened := by
        rw [hopened]
        exact h.started.concat_but _
      obtain ⟨hseen, hstarted⟩ := Seen.cleanup_open hsound hbut hi rfl now
      obtain ⟨hkept, -, ⟨ended, hended, hcleaned⟩, -⟩ := hsound.cleanup_open hi rfl now
      refine ⟨⟨hkept, hstarted⟩,
        ((request.stream driveId binding none none []).unbindEffect now s'.registry).2, ?_⟩
      have hold : ∀ {j : Nat} {stream : EventStream State}, s'.opened[j]? = some stream →
          j ≠ s.opened.length → s.opened[j]? = some stream := by
        intro j stream hj hne
        rw [hopened] at hj
        obtain hj | ⟨rfl, -⟩ := getElem?_concat_cases hj
        · exact hj
        · exact absurd rfl hne
      constructor
      · have hbound := bindSession_shownAs h.streams hbind
        rw [show registry = s'.registry by rw [hs']] at hbound
        exact hbound.trans hseen.shown
      · intro j stream' hj hopen
        have hne : j ≠ s.opened.length := by
          rintro rfl
          rw [hended, Option.some_inj] at hj
          rw [← hj, hcleaned] at hopen
          cases hopen
        obtain ⟨stream, hstream, hwritten⟩ | ⟨hnone, hnew⟩ := hseen.streams j stream' hj hopen
        · exact .inl ⟨stream, hold hstream hne, hwritten⟩
        · right
          refine ⟨?_, hnew⟩
          rw [hopened] at hnone
          rw [List.getElem?_eq_none_iff, List.length_append] at hnone
          exact List.getElem?_eq_none (Nat.le_of_add_right_le hnone)
      · intro j stream hj
        apply hseen.ended j stream
        rw [hopened, List.getElem?_append_left (List.getElem?_eq_some_iff.mp hj).1]
        exact hj
  | @started driveId registry binding hbind _ set watching hwatching hopened hregistry hsound =>
      refine ⟨⟨hsound, ?_⟩, [], ?_⟩
      · rw [hopened]
        exact h.started.concat (fun _ => ⟨rfl, hwatching⟩)
      · constructor
        · rw [hregistry]
          exact bindSession_shownAs h.streams hbind
        · intro i stream' hi hopen
          rw [hopened] at hi
          obtain hi | ⟨rfl, rfl⟩ := getElem?_concat_cases hi
          · exact (Seen.refl s).streams i stream' hi hopen |>.imp_right fun hnone => by
              rw [hi] at hnone
              cases hnone.1
          · right
            refine ⟨List.getElem?_eq_none (Nat.le_refl _), now, ?_⟩
            rw [hregistry]
            rfl
        · intro i stream hi
          refine ⟨stream, ?_, fun _ => ⟨rfl, rfl⟩⟩
          rw [hopened, List.getElem?_append_left (List.getElem?_eq_some_iff.mp hi).1]
          exact hi

/-- Every step keeps the invariant and writes to the open streams what it publishes. -/
theorem step_law [DecidableEq State] {s : EventRoutes State} (h : RoutesSound s) (now : Nat)
    (action : StreamAction State) :
  RoutesSound (s.step now action) ∧
    ∃ events, Seen s (s.step now action) events action.published
  := by
  have hcall : ∀ call : PresenceCall State,
      (s.registry.call now call).1.releases = s.registry.releases →
      RoutesSound (s.presenceEffect (s.registry.call now call)) ∧
        ∃ events, Seen s (s.presenceEffect (s.registry.call now call)) events [] := by
    intro call hreleases
    obtain ⟨hsound, hseen⟩ := presenceEffect_step h now call hreleases
    exact ⟨hsound, _, hseen⟩
  cases action with
  | openStream request => exact openStream_step h request now
  | upsert driveId sessionId user state =>
      apply hcall (.upsert driveId sessionId user state)
      unfold PresenceRegistry.call PresenceRegistry.call?
      dsimp only
      split
      case h_1 effect heffect => exact releases_upsert heffect
      case h_2 => rfl
  | remove driveId sessionId userId =>
      apply hcall (.remove driveId sessionId userId)
      unfold PresenceRegistry.call PresenceRegistry.call?
      dsimp only
      split
      case h_1 effect heffect => exact releases_remove heffect
      case h_2 => rfl
  | sweep =>
      apply hcall .sweep
      exact releases_removeAll now _ s.registry
  | publish event =>
      refine ⟨⟨h.streams.publishDriveEvent event, ?_⟩, [], ?_⟩
      · exact h.started.sameStreams (sameStreams_deliver _ _ _)
      · exact Seen.publishDriveEvent h.streams h.started event
  | heartbeat i authorized =>
      show RoutesSound (s.heartbeat i authorized now) ∧
        ∃ events, Seen s (s.heartbeat i authorized now) events []
      unfold EventRoutes.heartbeat
      cases hi : s.opened[i]? with
      | none => exact ⟨h, [], .refl s⟩
      | some stream =>
          cases hcleaned : stream.cleaned with
          | true =>
              simp only [hcleaned, if_true]
              exact ⟨h, [], .refl s⟩
          | false =>
              cases authorized with
              | true =>
                  simp only [hcleaned, Bool.false_eq_true, if_false, if_true]
                  refine ⟨⟨h.streams.write i .ping, ?_⟩, [], Seen.ping hi hcleaned⟩
                  exact h.started.sameStreams (sameStreams_deliver .ping [i] s.opened)
              | false =>
                  simp only [hcleaned, Bool.false_eq_true, if_false]
                  exact cleanup_step h i now
  | abort i => exact cleanup_step h i now

theorem routesSound_new :
  RoutesSound (EventRoutes.new : EventRoutes State)
  where
    streams :=
      { registry := presenceSound_empty
        listeners := ⟨Listeners.sound_new, by rintro i stream ⟨⟩, by rintro driveId i ⟨⟩⟩
        watchers := ⟨Listeners.sound_new, by rintro i stream ⟨⟩, by rintro driveId i ⟨⟩⟩
        bindings := ⟨by rintro i stream ⟨⟩, by rintro i j stream stream' ⟨⟩, by rintro index ⟨⟩⟩
        slots := ⟨fun _ => rfl, fun _ => Nat.zero_le _⟩
        flags := by rintro i stream ⟨⟩ }
    started := by rintro i stream ⟨⟩

theorem run_sound [DecidableEq State] {s : EventRoutes State} (h : RoutesSound s)
    (actions : List (Nat × StreamAction State)) :
  RoutesSound (s.run actions)
  := by
  induction actions generalizing s with
  | nil => exact h
  | cons action actions ih => exact ih (step_law h action.1 action.2).1

/-! ### The law -/

/-- What holds of the routes, whatever was requested before. -/
structure StreamsLaw (s : EventRoutes State) : Prop where
  /-- A user has as many slots in use as open streams, and no entry without any. -/
  slots : ∀ userId, s.streams.get userId =
    if openCount s.opened userId = 0 then none else some (openCount s.opened userId)
  limited : ∀ userId, openCount s.opened userId ≤ 8
  /-- The listeners of a drive are its open streams, each once. -/
  listeners : ∀ driveId, (s.listeners.subscribers driveId).Nodup ∧
    ∀ i, i ∈ s.listeners.subscribers driveId ↔
      ∃ stream, s.opened[i]? = some stream ∧ stream.cleaned = false ∧ stream.driveId = driveId
  /-- Its watchers are those of them that asked for presence. -/
  watchers : ∀ driveId, (s.watchers.subscribers driveId).Nodup ∧
    ∀ i, i ∈ s.watchers.subscribers driveId ↔
      ∃ stream, s.opened[i]? = some stream ∧ stream.cleaned = false ∧
        stream.driveId = driveId ∧ stream.presence = true
  /-- An entry of the registry is bound exactly to the open streams that have its release
  functions, which were called exactly by the streams that have ended. -/
  bound : ∀ e ∈ s.registry.entries, 0 < e.bindings ↔
    ∃ (i : Nat) (stream : EventStream State) (index : Nat) (release : PresenceRelease),
      s.opened[i]? = some stream ∧ stream.cleaned = false ∧ stream.binding = some index ∧
        s.registry.releases[index]? = some release ∧ release.Of e

theorem RoutesSound.law {s : EventRoutes State} (h : RoutesSound s) :
  StreamsLaw s
  where
    slots := h.streams.slots.counted
    limited := h.streams.slots.limited
    listeners := by
      intro driveId
      refine ⟨h.streams.listeners.sound.nodup driveId, fun i => ?_⟩
      rw [h.streams.listeners.mem_subscribers_iff]
      constructor
      · rintro ⟨stream, hi, hopen, hdrive, -⟩
        exact ⟨stream, hi, hopen, hdrive⟩
      · rintro ⟨stream, hi, hopen, hdrive⟩
        exact ⟨stream, hi, hopen, hdrive, (h.started i stream hi hopen).1⟩
    watchers := by
      intro driveId
      refine ⟨h.streams.watchers.sound.nodup driveId, fun i => ?_⟩
      rw [h.streams.watchers.mem_subscribers_iff]
      constructor
      · rintro ⟨stream, hi, hopen, hdrive, hset⟩
        exact ⟨stream, hi, hopen, hdrive, (h.started i stream hi hopen).2 ▸ hset⟩
      · rintro ⟨stream, hi, hopen, hdrive, hpresence⟩
        exact ⟨stream, hi, hopen, hdrive, (h.started i stream hi hopen).2.trans hpresence⟩
    bound := by
      intro e he
      rw [h.streams.registry.counted e he]
      unfold openReleases
      rw [Int.natCast_pos, List.length_pos_iff_exists_mem]
      constructor
      · rintro ⟨release, hrelease⟩
        obtain ⟨hmem, hp⟩ := List.mem_filter.mp hrelease
        rw [decide_eq_true_iff] at hp
        obtain ⟨index, hindex⟩ := List.mem_iff_getElem?.mp hmem
        obtain ⟨i, stream, hi, hbinding⟩ := h.streams.bindings.owned index
          (List.getElem?_eq_some_iff.mp hindex).1
        obtain ⟨release', hrelease', -, -, hreleased⟩ :=
          h.streams.bindings.holds i stream hi index hbinding
        rw [hindex, Option.some_inj] at hrelease'
        subst hrelease'
        obtain ⟨e', he', hof⟩ := h.streams.registry.owned release hmem
        have heq : e' = e := by
          apply h.streams.registry.refs.eq_of_mem he' he
          rw [hof.1, hp.1]
        exact ⟨i, stream, index, release, hi, hreleased.symm.trans hp.2, hbinding, hindex,
          heq ▸ hof⟩
      · rintro ⟨i, stream, index, release, hi, hopen, hbinding, hindex, hof⟩
        obtain ⟨release', hrelease', -, -, hreleased⟩ :=
          h.streams.bindings.holds i stream hi index hbinding
        rw [hindex, Option.some_inj] at hrelease'
        subst hrelease'
        refine ⟨release, List.mem_filter.mpr ⟨List.mem_of_getElem? hindex, ?_⟩⟩
        rw [decide_eq_true_iff]
        exact ⟨hof.1.symm, hreleased.trans hopen⟩

/-- The law of event streams holds after all requests. -/
theorem streams_law [DecidableEq State] (actions : List (Nat × StreamAction State)) :
  StreamsLaw (EventRoutes.new.run actions)
  := (run_sound routesSound_new actions).law

/-! ### What the tab of an open stream shows -/

theorem core_fields {stream stream' : EventStream State} (h : stream'.core = stream.core) :
  stream'.userId = stream.userId ∧ stream'.driveId = stream.driveId ∧
    stream'.presence = stream.presence ∧ stream'.cleaned = stream.cleaned
  := by
  have huser := congrArg EventStream.userId h
  have hdrive := congrArg EventStream.driveId h
  have hpresence := congrArg EventStream.presence h
  have hcleaned := congrArg EventStream.cleaned h
  exact ⟨huser, hdrive, hpresence, hcleaned⟩

/-- The tabs of the open streams show the registry. -/
def TabsShow (s : EventRoutes State) : Prop :=
  ∀ (i : Nat) (stream : EventStream State), s.opened[i]? = some stream → stream.cleaned = false →
    stream.presence = true →
    ShowsOthers s.registry stream.userId stream.driveId (shownSessions stream.userId stream.frames)

/-- Events of drives and pings change nothing of what a tab shows. -/
theorem foldl_receive_rest (userId : Text) (sessions : List (PresenceSession State))
    (events : List DriveEvent) (n : Nat) :
  (events.map StreamFrame.drive ++ List.replicate n StreamFrame.ping).foldl (receive userId)
    sessions = sessions
  := by
  rw [List.foldl_append]
  have hevents : (events.map StreamFrame.drive).foldl (receive userId) sessions = sessions := by
    induction events with
    | nil => rfl
    | cons event events ih => exact ih
  rw [hevents]
  induction n with
  | zero => rfl
  | succ n ih => exact ih

theorem TabsShow.step {s s' : EventRoutes State} (h : TabsShow s)
    {events : List (PresenceEvent State)} {published : List DriveEvent}
    (hseen : Seen s s' events published) :
  TabsShow s'
  := by
  intro i stream' hi hopen hpresence
  obtain ⟨stream, hstream, hcore, n, hframes⟩ | ⟨-, now, hframes⟩ := hseen.streams i stream' hi hopen
  · obtain ⟨huser, hdrive, hpresence', hcleaned⟩ := core_fields hcore
    have hshows := h i stream hstream (hcleaned ▸ hopen) (hpresence' ▸ hpresence)
    rw [hframes, huser, hdrive]
    unfold shownSessions
    rw [List.foldl_append, List.append_assoc, List.foldl_append]
    unfold EventStream.listens EventStream.watches
    rw [foldl_receive_rest, if_pos (hpresence' ▸ hpresence)]
    exact hseen.shown stream.userId stream.driveId _ hshows
  · rw [hpresence, if_pos rfl] at hframes
    rw [hframes]
    intro session
    simp only [shownSessions, List.foldl_cons, List.foldl_nil, receive, List.mem_filter,
      decide_eq_true_iff]

/-- Whatever was requested, a tab with an open stream shows the sessions of its drive that belong
to other users. -/
theorem tabs_show [DecidableEq State] (actions : List (Nat × StreamAction State)) :
  TabsShow (EventRoutes.new.run actions)
  := by
  suffices h : ∀ s : EventRoutes State, RoutesSound s → TabsShow s → TabsShow (s.run actions) by
    apply h _ routesSound_new
    rintro i stream ⟨⟩
  induction actions with
  | nil => exact fun s _ hshow => hshow
  | cons action actions ih =>
      intro s hsound hshow
      obtain ⟨hsound', events, hseen⟩ := step_law hsound action.1 action.2
      exact ih _ hsound' (hshow.step hseen)

/-! ### The events of the drive -/

def StreamFrame.driveEvent? : StreamFrame State → Option DriveEvent
  | .drive event => some event
  | _ => none

/-- The events of drives among the frames of a stream. -/
def EventStream.driveEvents (stream : EventStream State) : List DriveEvent :=
  stream.frames.filterMap StreamFrame.driveEvent?

/-- The events that were published by the actions. -/
def publishedBy (actions : List (Nat × StreamAction State)) : List DriveEvent :=
  actions.flatMap (fun action => action.2.published)

/-- What the streams have in `s'`, once the events were published: one that was open in `s` has
each event of its drive once and in their order after what it had, a new one has those since it
was opened, and nothing is sent to one that has ended. -/
structure DeliveredSince (s s' : EventRoutes State) (published : List DriveEvent) : Prop where
  streams : ∀ (i : Nat) (stream' : EventStream State), s'.opened[i]? = some stream' →
    stream'.cleaned = false →
    (∃ stream, s.opened[i]? = some stream ∧ stream.cleaned = false ∧
      stream.driveId = stream'.driveId ∧ stream'.driveEvents = stream.driveEvents ++
        published.filter (fun event => event.driveId = stream'.driveId)) ∨
      s.opened[i]? = none ∧
        stream'.driveEvents <:+ published.filter (fun event => event.driveId = stream'.driveId)
  ended : ∀ (i : Nat) (stream : EventStream State), s.opened[i]? = some stream →
    ∃ stream', s'.opened[i]? = some stream' ∧
      (stream.cleaned = true → stream'.cleaned = true ∧ stream'.frames = stream.frames)

theorem driveEvents_written {events : List (PresenceEvent State)} {published : List DriveEvent}
    {stream stream' : EventStream State} (h : Written events published stream stream') :
  stream'.driveEvents = stream.driveEvents ++
    published.filter (fun event => event.driveId = stream.driveId)
  := by
  obtain ⟨-, n, hframes⟩ := h
  have hpresence : (stream.watches events).filterMap StreamFrame.driveEvent? = [] := by
    unfold EventStream.watches
    split
    · rw [List.filterMap_eq_nil_iff]
      intro frame hframe
      obtain ⟨event, -, rfl⟩ := List.mem_map.mp hframe
      rfl
    · rfl
  have hdrive : (stream.listens published).filterMap StreamFrame.driveEvent? =
      published.filter (fun event => event.driveId = stream.driveId) := by
    unfold EventStream.listens
    rw [List.filterMap_map]
    exact List.filterMap_some
  have hpings : (List.replicate n (.ping : StreamFrame State)).filterMap
      StreamFrame.driveEvent? = [] := by
    rw [List.filterMap_eq_nil_iff]
    intro frame hframe
    rw [(List.mem_replicate.mp hframe).2]
    rfl
  unfold EventStream.driveEvents
  rw [hframes, List.filterMap_append, List.filterMap_append, List.filterMap_append, hpresence,
    hdrive, hpings, List.nil_append, List.append_nil]

theorem Seen.delivers {s s' : EventRoutes State} {events : List (PresenceEvent State)}
    {published : List DriveEvent} (h : Seen s s' events published) :
  DeliveredSince s s' published
  := by
  constructor
  · intro i stream' hi hopen
    obtain ⟨stream, hstream, hwritten⟩ | ⟨hnone, now, hframes⟩ := h.streams i stream' hi hopen
    · obtain ⟨-, hdrive, -, hcleaned⟩ := core_fields hwritten.core
      refine .inl ⟨stream, hstream, hcleaned.symm.trans hopen, hdrive.symm, ?_⟩
      rw [hdrive]
      exact driveEvents_written hwritten
    · refine .inr ⟨hnone, ?_⟩
      have hnew : stream'.driveEvents = [] := by
        unfold EventStream.driveEvents
        rw [hframes]
        split
        · rfl
        · rfl
      rw [hnew]
      exact List.nil_suffix
  · intro i stream hi
    obtain ⟨stream', hstream', hended⟩ := h.ended i stream hi
    refine ⟨stream', hstream', fun hcleaned => ?_⟩
    obtain ⟨hcore, hframes⟩ := hended hcleaned
    exact ⟨(core_fields hcore).2.2.2.trans hcleaned, hframes⟩

theorem DeliveredSince.trans {s₁ s₂ s₃ : EventRoutes State} {published₁ published₂ : List DriveEvent}
    (h₁ : DeliveredSince s₁ s₂ published₁) (h₂ : DeliveredSince s₂ s₃ published₂) :
  DeliveredSince s₁ s₃ (published₁ ++ published₂)
  := by
  constructor
  · intro i stream₃ hi₃ hopen₃
    rw [List.filter_append]
    obtain ⟨stream₂, hi₂, hopen₂, hdrive₂, hevents₂⟩ | ⟨hnone, hsuffix⟩ :=
      h₂.streams i stream₃ hi₃ hopen₃
    · rw [hevents₂, ← hdrive₂]
      obtain ⟨stream₁, hi₁, hopen₁, hdrive₁, hevents₁⟩ | ⟨hnone, hsuffix⟩ :=
        h₁.streams i stream₂ hi₂ hopen₂
      · refine .inl ⟨stream₁, hi₁, hopen₁, hdrive₁, ?_⟩
        rw [hevents₁, List.append_assoc]
      · exact .inr ⟨hnone, List.suffix_append_inj_of_length_eq rfl |>.mpr ⟨hsuffix, rfl⟩⟩
    · right
      refine ⟨?_, hsuffix.trans (List.suffix_append _ _)⟩
      cases hi₁ : s₁.opened[i]? with
      | none => rfl
      | some stream₁ =>
          obtain ⟨stream₂, hi₂, -⟩ := h₁.ended i stream₁ hi₁
          rw [hnone] at hi₂
          cases hi₂
  · intro i stream₁ hi₁
    obtain ⟨stream₂, hi₂, hended₂⟩ := h₁.ended i stream₁ hi₁
    obtain ⟨stream₃, hi₃, hended₃⟩ := h₂.ended i stream₂ hi₂
    refine ⟨stream₃, hi₃, fun hcleaned => ?_⟩
    obtain ⟨hcleaned₂, hframes₂⟩ := hended₂ hcleaned
    obtain ⟨hcleaned₃, hframes₃⟩ := hended₃ hcleaned₂
    exact ⟨hcleaned₃, hframes₃.trans hframes₂⟩

/-- Between any two moments of a run, the events of the drives are delivered to the streams. -/
theorem drive_events_delivered [DecidableEq State] (before after : List (Nat × StreamAction State)) :
  DeliveredSince (EventRoutes.new.run before) ((EventRoutes.new.run before).run after)
    (publishedBy after)
  := by
  have hsound : RoutesSound ((EventRoutes.new : EventRoutes State).run before) :=
    run_sound routesSound_new before
  generalize EventRoutes.new.run before = s at hsound
  induction after generalizing s with
  | nil => exact (Seen.refl s).delivers
  | cons action after ih =>
      obtain ⟨hsound', events, hseen⟩ := step_law hsound action.1 action.2
      exact hseen.delivers.trans (ih _ hsound')

end

end AgentFs

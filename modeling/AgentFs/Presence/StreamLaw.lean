import AgentFs.Presence.Calls
import AgentFs.Presence.Streams

/-!
# The law of event streams

Whatever streams were opened and ended, a user has as many slots in use as open streams, which are
never more than the limit, the listeners of a drive are exactly its open streams, and the release
function that a stream got is called exactly when the stream is cleaned up.
-/

namespace AgentFs

section

variable {State : Type}

/-! ### Writes -/

/-- A stream without its frames and without the flag that its slot was given back. -/
def EventStream.core (stream : EventStream State) : EventStream State :=
  { stream with frames := [], released := false }

@[simp]
theorem core_write (frame : StreamFrame State) (stream : EventStream State) :
  (stream.write frame).core = stream.core
  := rfl

/-- Each target gets the frame once. -/
theorem getElem?_deliver (frame : StreamFrame State) {targets : List Nat} (h : targets.Nodup)
    (opened : List (EventStream State)) (i : Nat) :
  (deliver frame targets opened)[i]? =
    (opened[i]?).map (fun stream => if i ∈ targets then stream.write frame else stream)
  := by
  induction targets generalizing opened with
  | nil => simp [deliver]
  | cons j targets ih =>
      obtain ⟨hj, hrest⟩ := List.nodup_cons.mp h
      rw [deliver, ih hrest, List.getElem?_modify, Option.map_eq_map, Option.map_map]
      congr 1
      funext stream
      by_cases hij : j = i
      · subst hij
        simp [hj]
      · simp [hij, Ne.symm hij]

/-- The streams are the same apart from their frames and the flag of their slots. -/
def SameStreams (opened opened' : List (EventStream State)) : Prop :=
  opened'.map EventStream.core = opened.map EventStream.core

theorem SameStreams.getElem? {opened opened' : List (EventStream State)}
    (h : SameStreams opened opened') {i : Nat} {stream' : EventStream State}
    (hi : opened'[i]? = some stream') :
  ∃ stream, opened[i]? = some stream ∧ stream'.core = stream.core
  := by
  have hget := congrArg (·[i]?) h
  simp only [List.getElem?_map, hi, Option.map_some] at hget
  obtain ⟨stream, hstream, hcore⟩ := Option.map_eq_some_iff.mp hget.symm
  exact ⟨stream, hstream, hcore.symm⟩

theorem SameStreams.symm {opened opened' : List (EventStream State)}
    (h : SameStreams opened opened') :
  SameStreams opened' opened
  := Eq.symm h

theorem sameStreams_deliver (frame : StreamFrame State) (targets : List Nat)
    (opened : List (EventStream State)) :
  SameStreams opened (deliver frame targets opened)
  := by
  induction targets generalizing opened with
  | nil => exact rfl
  | cons j targets ih =>
      have hmodify : (opened.modify j (EventStream.write frame)).map EventStream.core =
          opened.map EventStream.core := by
        apply List.ext_getElem?
        intro i
        rw [List.getElem?_map, List.getElem?_map, List.getElem?_modify, Option.map_eq_map,
          Option.map_map]
        congr 1
        funext stream
        by_cases hij : j = i
        · simp [hij]
        · simp [hij]
      exact (ih _).trans hmodify

theorem sameStreams_publish (events : List (PresenceEvent State)) (s : EventRoutes State) :
  SameStreams s.opened (events.foldl EventRoutes.publish s).opened
  := by
  induction events generalizing s with
  | nil => exact rfl
  | cons event events ih => exact (ih _).trans (sameStreams_deliver _ _ _)

/-- Publishing writes to the streams only. -/
theorem publish_fields (events : List (PresenceEvent State)) (s : EventRoutes State) :
  (events.foldl EventRoutes.publish s).streams = s.streams ∧
    (events.foldl EventRoutes.publish s).listeners = s.listeners ∧
    (events.foldl EventRoutes.publish s).watchers = s.watchers ∧
    (events.foldl EventRoutes.publish s).registry = s.registry
  := by
  induction events generalizing s with
  | nil => exact ⟨rfl, rfl, rfl, rfl⟩
  | cons event events ih => exact ih (s.publish event)

/-- A stream gets the events of the drives that it watches. -/
theorem getElem?_publish (events : List (PresenceEvent State)) {s : EventRoutes State}
    (h : s.watchers.Sound) (i : Nat) :
  (events.foldl EventRoutes.publish s).opened[i]? =
    (s.opened[i]?).map (fun stream =>
      { stream with
        frames := stream.frames ++
          (events.filter (fun event => i ∈ s.watchers.subscribers event.driveId)).map
            StreamFrame.presence })
  := by
  induction events generalizing s with
  | nil => simp
  | cons event events ih =>
      have hnext : (s.publish event).watchers = s.watchers := rfl
      rw [List.foldl_cons, ih (hnext ▸ h), hnext, EventRoutes.publish,
        getElem?_deliver _ (h.nodup _), Option.map_map]
      congr 1
      funext stream
      by_cases hi : i ∈ s.watchers.subscribers event.driveId
      · simp [hi, EventStream.write]
      · simp [hi]

theorem getElem?_concat_cases {α : Type} {l : List α} {a b : α} {i : Nat}
    (h : (l ++ [a])[i]? = some b) :
  l[i]? = some b ∨ i = l.length ∧ b = a
  := by
  have hlt := (List.getElem?_eq_some_iff.mp h).1
  rw [List.length_append, List.length_singleton] at hlt
  obtain hlt | rfl := Nat.lt_or_eq_of_le (Nat.le_of_lt_succ hlt)
  · rw [List.getElem?_append_left hlt] at h
    exact .inl h
  · rw [List.getElem?_concat_length, Option.some_inj] at h
    exact .inr ⟨rfl, h.symm⟩

/-! ### Subscriptions -/

/-- The listeners of a drive are its open streams with a subscription, which is of kind `set`. -/
structure Subscriptions (set : EventStream State → Option Nat) (l : Listeners Text)
    (opened : List (EventStream State)) : Prop where
  sound : l.Sound
  holds : ∀ (i : Nat) (stream : EventStream State), opened[i]? = some stream →
    stream.cleaned = false → ∀ ref ∈ set stream, l.Holds stream.driveId ref i
  listed : ∀ driveId, ∀ i ∈ l.subscribers driveId, ∃ stream : EventStream State,
    opened[i]? = some stream ∧ stream.cleaned = false ∧ stream.driveId = driveId ∧
      (set stream).isSome

namespace Subscriptions

variable {set : EventStream State → Option Nat} {l : Listeners Text}
  {opened : List (EventStream State)}

theorem mem_subscribers_iff (h : Subscriptions set l opened) (driveId : Text) (i : Nat) :
  i ∈ l.subscribers driveId ↔ ∃ stream, opened[i]? = some stream ∧ stream.cleaned = false ∧
    stream.driveId = driveId ∧ (set stream).isSome
  := by
  constructor
  · exact h.listed driveId i
  · rintro ⟨stream, hstream, hopen, rfl, hset⟩
    obtain ⟨ref, href⟩ := Option.isSome_iff_exists.mp hset
    exact (h.holds i stream hstream hopen ref href).2

/-- What changes the frames of streams, or ends streams that have no subscription, changes no
subscription. -/
theorem congr (h : Subscriptions set l opened) {opened' : List (EventStream State)}
    (hsame : ∀ i : Nat, ∀ stream', opened'[i]? = some stream' → stream'.cleaned = false →
      ∃ stream : EventStream State, opened[i]? = some stream ∧ stream.cleaned = false ∧
        stream.driveId = stream'.driveId ∧ set stream = set stream')
    (hback : ∀ i : Nat, ∀ stream : EventStream State, opened[i]? = some stream →
      stream.cleaned = false → (set stream).isSome →
      ∃ stream', opened'[i]? = some stream' ∧ stream'.cleaned = false ∧
        stream'.driveId = stream.driveId ∧ set stream' = set stream) :
  Subscriptions set l opened'
  where
    sound := h.sound
    holds := by
      intro i stream' hstream' hopen ref href
      obtain ⟨stream, hstream, hopen', hdrive, hset⟩ := hsame i stream' hstream' hopen
      rw [← hdrive]
      exact h.holds i stream hstream hopen' ref (hset ▸ href)
    listed := by
      intro driveId i hi
      obtain ⟨stream, hstream, hopen, hdrive, hset⟩ := h.listed driveId i hi
      obtain ⟨stream', hstream', hopen', hdrive', hset'⟩ := hback i stream hstream hopen hset
      exact ⟨stream', hstream', hopen', hdrive'.trans hdrive, hset' ▸ hset⟩

theorem sameStreams (h : Subscriptions set l opened) (hset : ∀ stream, set stream.core = set stream)
    {opened' : List (EventStream State)} (hsame : SameStreams opened opened') :
  Subscriptions set l opened'
  := by
  have hcore : ∀ {stream stream' : EventStream State}, stream'.core = stream.core →
      stream'.cleaned = stream.cleaned ∧ stream'.driveId = stream.driveId ∧
        set stream' = set stream := by
    intro stream stream' heq
    have hcleaned := congrArg EventStream.cleaned heq
    have hdrive := congrArg EventStream.driveId heq
    refine ⟨hcleaned, hdrive, ?_⟩
    rw [← hset stream', heq, hset stream]
  apply h.congr
  · intro i stream' hstream' hopen
    obtain ⟨stream, hstream, heq⟩ := hsame.getElem? hstream'
    obtain ⟨hcleaned, hdrive, hsets⟩ := hcore heq
    exact ⟨stream, hstream, hcleaned ▸ hopen, hdrive.symm, hsets.symm⟩
  · intro i stream hstream hopen _
    obtain ⟨stream', hstream', heq⟩ := hsame.symm.getElem? hstream
    obtain ⟨hcleaned, hdrive, hsets⟩ := hcore heq
    exact ⟨stream', hstream', hcleaned.symm ▸ hopen, hdrive.symm, hsets.symm⟩

/-- The number of the next stream is no listener yet. -/
theorem not_mem_length (h : Subscriptions set l opened) (driveId : Text) :
  opened.length ∉ l.subscribers driveId
  := by
  intro hmem
  obtain ⟨stream, hstream, -⟩ := h.listed driveId _ hmem
  rw [List.getElem?_eq_none (Nat.le_refl _)] at hstream
  cases hstream

/-- A stream without a subscription is opened. -/
theorem concat_none (h : Subscriptions set l opened) {stream : EventStream State}
    (hset : set stream = none) :
  Subscriptions set l (opened ++ [stream])
  where
    sound := h.sound
    holds := by
      intro i stream' hstream' hopen ref href
      obtain hstream' | ⟨-, rfl⟩ := getElem?_concat_cases hstream'
      · exact h.holds i stream' hstream' hopen ref href
      · rw [hset] at href
        cases href
    listed := by
      intro driveId i hi
      obtain ⟨stream', hstream', hrest⟩ := h.listed driveId i hi
      refine ⟨stream', ?_, hrest⟩
      rwa [List.getElem?_append_left (List.getElem?_eq_some_iff.mp hstream').1]

/-- A stream is opened with a subscription. -/
theorem concat_some (h : Subscriptions set l opened) (stream : EventStream State)
    (hopen : stream.cleaned = false)
    (hset : set stream = some (l.subscribe stream.driveId opened.length).2) :
  Subscriptions set (l.subscribe stream.driveId opened.length).1 (opened ++ [stream])
  := by
  have hnew := h.not_mem_length stream.driveId
  constructor
  · exact h.sound.subscribe hnew
  · intro i stream' hstream' hopen' ref href
    obtain hstream' | ⟨rfl, rfl⟩ := getElem?_concat_cases hstream'
    · exact (h.holds i stream' hstream' hopen' ref href).subscribe h.sound hnew
    · rw [hset, Option.mem_some_iff] at href
      subst href
      exact Listeners.holds_subscribe h.sound hnew
  · intro driveId i hi
    rw [Listeners.subscribers_subscribe h.sound hnew] at hi
    split at hi
    case isTrue hdrive =>
      obtain hi | hi := List.mem_append.mp hi
      · obtain ⟨stream', hstream', hrest⟩ := h.listed _ i hi
        rw [hdrive]
        refine ⟨stream', ?_, hrest⟩
        rwa [List.getElem?_append_left (List.getElem?_eq_some_iff.mp hstream').1]
      · obtain rfl := List.mem_singleton.mp hi
        exact ⟨stream, List.getElem?_concat_length, hopen, hdrive.symm, by rw [hset]; rfl⟩
    case isFalse =>
      obtain ⟨stream', hstream', hrest⟩ := h.listed _ i hi
      refine ⟨stream', ?_, hrest⟩
      rwa [List.getElem?_append_left (List.getElem?_eq_some_iff.mp hstream').1]

/-- A stream is ended, and its subscription with it. -/
theorem ended (h : Subscriptions set l opened) {i : Nat} {stream : EventStream State}
    (hi : opened[i]? = some stream) (hopen : stream.cleaned = false) {ref : Nat}
    (hset : set stream = some ref) {opened' : List (EventStream State)}
    (hself : ∀ stream', opened'[i]? = some stream' → stream'.cleaned = true)
    (hother : ∀ j, j ≠ i → opened'[j]? = opened[j]?) :
  Subscriptions set (l.unsubscribe stream.driveId ref i) opened'
  := by
  have hheld := h.holds i stream hi hopen ref hset
  constructor
  · exact h.sound.unsubscribe hheld.1
  · intro j stream' hstream' hopen' ref' href'
    have hne : j ≠ i := by
      rintro rfl
      rw [hself stream' hstream'] at hopen'
      cases hopen'
    rw [hother j hne] at hstream'
    exact (h.holds j stream' hstream' hopen' ref' href').unsubscribe h.sound hheld.1 hne
  · intro driveId j hj
    have hlisted : j ∈ l.subscribers driveId ∧ j ≠ i := by
      rw [Listeners.subscribers_unsubscribe h.sound hheld.1] at hj
      split at hj
      case isTrue hdrive =>
        obtain ⟨hmem, hne⟩ := List.mem_filter.mp hj
        exact ⟨hdrive ▸ hmem, of_decide_eq_true hne⟩
      case isFalse hdrive =>
        refine ⟨hj, ?_⟩
        rintro rfl
        obtain ⟨stream', hstream', -, hdrive', -⟩ := h.listed driveId _ hj
        rw [hi, Option.some_inj] at hstream'
        exact hdrive (hdrive' ▸ hstream' ▸ rfl)
    obtain ⟨stream', hstream', hrest⟩ := h.listed driveId j hlisted.1
    exact ⟨stream', (hother j hlisted.2).trans hstream', hrest⟩

/-- A stream without a subscription is ended. -/
theorem ended_none (h : Subscriptions set l opened) {i : Nat} {stream : EventStream State}
    (hi : opened[i]? = some stream) (hset : set stream = none)
    {opened' : List (EventStream State)}
    (hself : ∀ stream', opened'[i]? = some stream' → stream'.cleaned = true)
    (hother : ∀ j, j ≠ i → opened'[j]? = opened[j]?) :
  Subscriptions set l opened'
  := by
  apply h.congr
  · intro j stream' hstream' hopen'
    have hne : j ≠ i := by
      rintro rfl
      rw [hself stream' hstream'] at hopen'
      cases hopen'
    exact ⟨stream', (hother j hne) ▸ hstream', hopen', rfl, rfl⟩
  · intro j stream' hstream' hopen' hsome
    have hne : j ≠ i := by
      rintro rfl
      rw [hi, Option.some_inj] at hstream'
      rw [← hstream', hset] at hsome
      cases hsome
    exact ⟨stream', (hother j hne).trans hstream', hopen', rfl, rfl⟩

end Subscriptions

/-! ### Bindings -/

theorem releases_upsertEntry [DecidableEq State] (r : PresenceRegistry State)
    (e : PresenceEntry State) (user : PresenceUser) (state : State) (now : Nat) :
  (r.upsertEntry e user state now).1.releases = r.releases
  := by
  unfold PresenceRegistry.upsertEntry
  split
  · rfl
  · rfl

theorem releases_upsert [DecidableEq State] {r : PresenceRegistry State} {driveId sessionId : Text}
    {user : PresenceUser} {state : State} {now : Nat} {effect : PresenceEffect State}
    (h : r.upsert driveId sessionId user state now = .ok effect) :
  effect.1.releases = r.releases
  := by
  unfold PresenceRegistry.upsert at h
  dsimp only at h
  split at h
  · cases h
  · split at h
    · cases h
    · split at h
      · cases h
        apply releases_upsertEntry
      · cases h
        apply releases_upsertEntry

theorem releases_remove {r : PresenceRegistry State} {driveId sessionId userId : Text} {now : Nat}
    {effect : PresenceEffect State} (h : r.remove driveId sessionId userId now = .ok effect) :
  effect.1.releases = r.releases
  := by
  unfold PresenceRegistry.remove at h
  split at h
  · cases h
    rfl
  · split at h
    · cases h
    · cases h
      rfl

theorem releases_removeAll (now : Nat) (es : List (PresenceEntry State))
    (r : PresenceRegistry State) :
  (r.removeAll now es).1.releases = r.releases
  := by
  induction es generalizing r with
  | nil => rfl
  | cons e es ih =>
      have hentry : (r.removeEntry e now).1.releases = r.releases := by
        unfold PresenceRegistry.removeEntry
        split
        case h_1 effect h => exact releases_remove h
        case h_2 => rfl
      exact (ih _).trans hentry

/-- A release function is marked when it is called. -/
theorem releases_release {r : PresenceRegistry State} {index now : Nat} {h : PresenceRelease}
    (hindex : r.releases[index]? = some h) (hopen : h.released = false) :
  (r.release index now).1.releases = r.releases.set index { h with released := true }
  := by
  unfold PresenceRegistry.release
  simp only [hindex, hopen, Bool.false_eq_true, if_false]
  split
  · split
    case h_1 effect hremove => exact releases_remove hremove
    case h_2 => rfl
  · rfl

theorem releases_bind {r : PresenceRegistry State} {driveId sessionId userId : Text} {now : Nat}
    {effect : PresenceEffect State} (h : r.bind driveId sessionId userId now = .ok effect) :
  ∃ ref, effect.1.releases = r.releases ++ [⟨ref, driveId, sessionId, userId, false⟩] ∧
    effect.2 = []
  := by
  unfold PresenceRegistry.bind at h
  dsimp only at h
  split at h
  · cases h
  · cases h
    exact ⟨_, rfl, rfl⟩

/-- The release functions of the registry belong to the streams, one each, and are called when
their stream is cleaned up. -/
structure Bindings (releases : List PresenceRelease) (opened : List (EventStream State)) : Prop where
  holds : ∀ (i : Nat) (stream : EventStream State), opened[i]? = some stream →
    ∀ index ∈ stream.binding, ∃ h, releases[index]? = some h ∧ h.driveId = stream.driveId ∧
      h.userId = stream.userId ∧ h.released = stream.cleaned
  apart : ∀ (i j : Nat) (stream stream' : EventStream State), opened[i]? = some stream →
    opened[j]? = some stream' → ∀ index ∈ stream.binding, index ∈ stream'.binding → i = j
  owned : ∀ index < releases.length, ∃ (i : Nat) (stream : EventStream State),
    opened[i]? = some stream ∧ index ∈ stream.binding

namespace Bindings

variable {releases : List PresenceRelease} {opened : List (EventStream State)}

theorem sameStreams (h : Bindings releases opened) {opened' : List (EventStream State)}
    (hsame : SameStreams opened opened') :
  Bindings releases opened'
  := by
  have hcore : ∀ {stream stream' : EventStream State}, stream'.core = stream.core →
      stream'.binding = stream.binding ∧ stream'.driveId = stream.driveId ∧
        stream'.userId = stream.userId ∧ stream'.cleaned = stream.cleaned := by
    intro stream stream' heq
    have hbinding := congrArg EventStream.binding heq
    have hdrive := congrArg EventStream.driveId heq
    have huser := congrArg EventStream.userId heq
    have hcleaned := congrArg EventStream.cleaned heq
    exact ⟨hbinding, hdrive, huser, hcleaned⟩
  constructor
  · intro i stream' hi index hindex
    obtain ⟨stream, hstream, heq⟩ := hsame.getElem? hi
    obtain ⟨hbinding, hdrive, huser, hcleaned⟩ := hcore heq
    rw [hdrive, huser, hcleaned]
    exact h.holds i stream hstream index (hbinding ▸ hindex)
  · intro i j stream stream' hi hj index hindex hindex'
    obtain ⟨first, hfirst, heq⟩ := hsame.getElem? hi
    obtain ⟨second, hsecond, heq'⟩ := hsame.getElem? hj
    exact h.apart i j first second hfirst hsecond index ((hcore heq).1 ▸ hindex)
      ((hcore heq').1 ▸ hindex')
  · intro index hlt
    obtain ⟨i, stream, hi, hindex⟩ := h.owned index hlt
    obtain ⟨stream', hstream', heq⟩ := hsame.symm.getElem? hi
    exact ⟨i, stream', hstream', (hcore heq).1 ▸ hindex⟩

theorem concat_none (h : Bindings releases opened) {stream : EventStream State}
    (hbinding : stream.binding = none) :
  Bindings releases (opened ++ [stream])
  := by
  have hold : ∀ {i : Nat} {stream' : EventStream State} {index : Nat},
      (opened ++ [stream])[i]? = some stream' → index ∈ stream'.binding →
      opened[i]? = some stream' := by
    intro i stream' index hi hindex
    obtain hi | ⟨-, rfl⟩ := getElem?_concat_cases hi
    · exact hi
    · rw [hbinding] at hindex
      cases hindex
  constructor
  · intro i stream' hi index hindex
    exact h.holds i stream' (hold hi hindex) index hindex
  · intro i j first second hi hj index hindex hindex'
    exact h.apart i j first second (hold hi hindex) (hold hj hindex') index hindex hindex'
  · intro index hlt
    obtain ⟨i, stream', hi, hindex⟩ := h.owned index hlt
    refine ⟨i, stream', ?_, hindex⟩
    rwa [List.getElem?_append_left (List.getElem?_eq_some_iff.mp hi).1]

/-- A stream is opened that is bound to a session. -/
theorem concat_some (h : Bindings releases opened) {stream : EventStream State}
    (hbinding : stream.binding = some releases.length) {new : PresenceRelease}
    (hdrive : new.driveId = stream.driveId) (huser : new.userId = stream.userId)
    (hcleaned : new.released = stream.cleaned) :
  Bindings (releases ++ [new]) (opened ++ [stream])
  := by
  have hbound : ∀ {i : Nat} {stream' : EventStream State}, opened[i]? = some stream' →
      releases.length ∉ stream'.binding := by
    intro i stream' hi hindex
    obtain ⟨h', hget, -⟩ := h.holds i stream' hi _ hindex
    rw [List.getElem?_eq_none (Nat.le_refl _)] at hget
    cases hget
  constructor
  · intro i stream' hi index hindex
    obtain hi | ⟨rfl, rfl⟩ := getElem?_concat_cases hi
    · obtain ⟨h', hget, hrest⟩ := h.holds i stream' hi index hindex
      refine ⟨h', ?_, hrest⟩
      rwa [List.getElem?_append_left (List.getElem?_eq_some_iff.mp hget).1]
    · rw [hbinding, Option.mem_some_iff] at hindex
      subst hindex
      exact ⟨new, List.getElem?_concat_length, hdrive, huser, hcleaned⟩
  · intro i j first second hi hj index hindex hindex'
    obtain hold | ⟨rfl, rfl⟩ := getElem?_concat_cases hi
    · obtain hold' | ⟨rfl, rfl⟩ := getElem?_concat_cases hj
      · exact h.apart i j first second hold hold' index hindex hindex'
      · rw [hbinding, Option.mem_some_iff] at hindex'
        exact absurd (hindex' ▸ hindex) (hbound hold)
    · obtain hold' | ⟨rfl, -⟩ := getElem?_concat_cases hj
      · rw [hbinding, Option.mem_some_iff] at hindex
        exact absurd (hindex ▸ hindex') (hbound hold')
      · rfl
  · intro index hlt
    rw [List.length_append, List.length_singleton] at hlt
    obtain hlt | rfl := Nat.lt_or_eq_of_le (Nat.le_of_lt_succ hlt)
    · obtain ⟨i, stream', hi, hindex⟩ := h.owned index hlt
      refine ⟨i, stream', ?_, hindex⟩
      rwa [List.getElem?_append_left (List.getElem?_eq_some_iff.mp hi).1]
    · exact ⟨opened.length, stream, List.getElem?_concat_length, hbinding⟩

/-- A stream is cleaned up, and its release function called. -/
theorem ended (h : Bindings releases opened) {i : Nat} {stream : EventStream State}
    (hi : opened[i]? = some stream) {releases' : List PresenceRelease}
    (hreleases : match stream.binding with
      | none => releases' = releases
      | some index => ∃ h, releases[index]? = some h ∧
          releases' = releases.set index { h with released := true })
    {opened' : List (EventStream State)}
    (hself : opened'[i]? = some { stream with cleaned := true })
    (hother : ∀ j, j ≠ i → opened'[j]? = opened[j]?) :
  Bindings releases' opened'
  := by
  have hback : ∀ {j : Nat} {stream' : EventStream State}, opened'[j]? = some stream' →
      ∃ stream'', opened[j]? = some stream'' ∧ stream''.binding = stream'.binding := by
    intro j stream' hj
    by_cases hne : j = i
    · subst hne
      rw [hself, Option.some_inj] at hj
      subst hj
      exact ⟨stream, hi, rfl⟩
    · exact ⟨stream', hother j hne ▸ hj, rfl⟩
  have hlength : releases'.length = releases.length := by
    split at hreleases
    · rw [hreleases]
    · obtain ⟨h', -, rfl⟩ := hreleases
      exact List.length_set
  constructor
  · intro j stream' hj index hindex
    by_cases hne : j = i
    · subst hne
      rw [hself, Option.some_inj] at hj
      subst hj
      obtain ⟨h', hget, hdrive, huser, -⟩ := h.holds _ stream hi index hindex
      have hbinding : stream.binding = some index := hindex
      rw [hbinding] at hreleases
      obtain ⟨h'', hget', rfl⟩ := hreleases
      rw [hget, Option.some_inj] at hget'
      subst hget'
      refine ⟨{ h' with released := true }, ?_, hdrive, huser, rfl⟩
      rw [List.getElem?_set_self (List.getElem?_eq_some_iff.mp hget).1]
    · rw [hother j hne] at hj
      obtain ⟨h', hget, hrest⟩ := h.holds j stream' hj index hindex
      refine ⟨h', ?_, hrest⟩
      split at hreleases
      · rwa [hreleases]
      · rename_i index' hbinding
        obtain ⟨h'', -, rfl⟩ := hreleases
        have hindex' : index' ≠ index := by
          rintro rfl
          exact hne (h.apart j i stream' stream hj hi index' hindex hbinding)
        rwa [List.getElem?_set_ne hindex']
  · intro j k first second hj hk index hindex hindex'
    obtain ⟨first', hfirst, heq⟩ := hback hj
    obtain ⟨second', hsecond, heq'⟩ := hback hk
    exact h.apart j k first' second' hfirst hsecond index (heq ▸ hindex) (heq' ▸ hindex')
  · intro index hlt
    obtain ⟨j, stream', hj, hindex⟩ := h.owned index (hlength ▸ hlt)
    by_cases hne : j = i
    · subst hne
      rw [hi, Option.some_inj] at hj
      subst hj
      exact ⟨j, _, hself, hindex⟩
    · exact ⟨j, stream', (hother j hne).trans hj, hindex⟩

end Bindings

/-! ### Slots -/

/-- How many streams of a user are open. -/
def openCount (opened : List (EventStream State)) (userId : Text) : Nat :=
  opened.countP (fun stream => stream.userId = userId ∧ stream.cleaned = false)

/-- The count of a user is the number of their open streams; one of zero is not kept. -/
structure Slots (streams : OrderedMap Text Nat) (opened : List (EventStream State)) : Prop where
  counted : ∀ userId, streams.get userId =
    if openCount opened userId = 0 then none else some (openCount opened userId)
  limited : ∀ userId, openCount opened userId ≤ maxStreamsPerUser

theorem openCount_sameStreams {opened opened' : List (EventStream State)}
    (h : SameStreams opened opened') (userId : Text) :
  openCount opened' userId = openCount opened userId
  := by
  have hcore : ∀ list : List (EventStream State), openCount list userId =
      (list.map EventStream.core).countP
        (fun stream => stream.userId = userId ∧ stream.cleaned = false) := by
    intro list
    rw [List.countP_map]
    rfl
  rw [hcore, hcore, h]

theorem openCount_concat (opened : List (EventStream State)) {stream : EventStream State}
    (hopen : stream.cleaned = false) (userId : Text) :
  openCount (opened ++ [stream]) userId =
    openCount opened userId + if userId = stream.userId then 1 else 0
  := by
  unfold openCount
  rw [List.countP_append, List.countP_singleton]
  congr 1
  by_cases huser : userId = stream.userId
  · simp [huser, hopen]
  · simp [huser, Ne.symm huser]

theorem openCount_ended {opened opened' : List (EventStream State)} {i : Nat}
    {stream : EventStream State} (hi : opened[i]? = some stream) (hopen : stream.cleaned = false)
    (hself : opened'[i]? = some { stream with cleaned := true })
    (hother : ∀ j, j ≠ i → opened'[j]? = opened[j]?) (userId : Text) :
  openCount opened' userId + (if userId = stream.userId then 1 else 0) = openCount opened userId
  := by
  obtain ⟨hlt, hget⟩ := List.getElem?_eq_some_iff.mp hi
  have hset : opened' = opened.set i { stream with cleaned := true } := by
    apply List.ext_getElem?
    intro j
    by_cases hj : j = i
    · rw [hj, hself, List.getElem?_set_self hlt]
    · rw [hother j hj, List.getElem?_set_ne (Ne.symm hj)]
  have hle := List.boole_getElem_le_countP
    (p := fun stream : EventStream State => decide (stream.userId = userId ∧ stream.cleaned = false))
    hlt
  unfold openCount
  rw [hset, List.countP_set hlt]
  rw [hget] at hle ⊢
  by_cases huser : userId = stream.userId
  · simp only [huser, hopen, and_self, decide_true, if_true, Bool.true_eq_false, and_false,
      decide_false, Bool.false_eq_true, if_false] at hle ⊢
    omega
  · simp [huser, Ne.symm huser]

namespace Slots

variable {streams : OrderedMap Text Nat} {opened : List (EventStream State)}

theorem sameStreams (h : Slots streams opened) {opened' : List (EventStream State)}
    (hsame : SameStreams opened opened') :
  Slots streams opened'
  where
    counted := by
      intro userId
      rw [openCount_sameStreams hsame]
      exact h.counted userId
    limited := by
      intro userId
      rw [openCount_sameStreams hsame]
      exact h.limited userId

theorem getD (h : Slots streams opened) (userId : Text) :
  (streams.get userId).getD 0 = openCount opened userId
  := by
  rw [h.counted]
  split
  case isTrue hzero => exact hzero.symm
  case isFalse => rfl

theorem concat (h : Slots streams opened) (stream : EventStream State)
    (hopen : stream.cleaned = false)
    (hfree : ¬ (streams.get stream.userId).getD 0 ≥ maxStreamsPerUser) :
  Slots (streams.set stream.userId ((streams.get stream.userId).getD 0 + 1)) (opened ++ [stream])
  := by
  rw [h.getD] at hfree ⊢
  constructor
  · intro userId
    rw [OrderedMap.get_set, openCount_concat opened hopen]
    split
    case isTrue huser =>
      rw [huser, if_neg (Nat.succ_ne_zero _)]
    case isFalse => exact h.counted userId
  · intro userId
    rw [openCount_concat opened hopen]
    split
    case isTrue huser =>
      rw [huser]
      omega
    case isFalse => exact h.limited userId

theorem ended (h : Slots streams opened) {i : Nat} {stream : EventStream State}
    (hi : opened[i]? = some stream) (hopen : stream.cleaned = false)
    {opened' : List (EventStream State)}
    (hself : opened'[i]? = some { stream with cleaned := true })
    (hother : ∀ j, j ≠ i → opened'[j]? = opened[j]?) :
  Slots (if (streams.get stream.userId).getD 1 - 1 = 0 then streams.delete stream.userId
    else streams.set stream.userId ((streams.get stream.userId).getD 1 - 1)) opened'
  := by
  have hcount := openCount_ended hi hopen hself hother
  have hself := hcount stream.userId
  rw [if_pos rfl] at hself
  have hget : (streams.get stream.userId).getD 1 - 1 = openCount opened' stream.userId := by
    rw [h.counted, if_neg (by omega), Option.getD_some]
    omega
  rw [hget]
  constructor
  · intro userId
    by_cases huser : userId = stream.userId
    · subst huser
      split
      · rw [OrderedMap.get_delete, if_pos rfl]
      · rw [OrderedMap.get_set, if_pos rfl]
    · have hsame := hcount userId
      rw [if_neg huser, Nat.add_zero] at hsame
      rw [hsame, ← h.counted]
      split
      · rw [OrderedMap.get_delete, if_neg huser]
      · rw [OrderedMap.get_set, if_neg huser]
  · intro userId
    have hle := h.limited userId
    have hsame := hcount userId
    omega

end Slots

/-! ### The invariant -/

structure StreamsSound (s : EventRoutes State) : Prop where
  registry : PresenceSound s.registry
  listeners : Subscriptions EventStream.listening s.listeners s.opened
  watchers : Subscriptions EventStream.watching s.watchers s.opened
  bindings : Bindings s.registry.releases s.opened
  slots : Slots s.streams s.opened
  flags : ∀ (i : Nat) (stream : EventStream State), s.opened[i]? = some stream →
    stream.released = stream.cleaned

namespace StreamsSound

variable {s : EventRoutes State}

/-- What a call of the registry that concerns no release function does. -/
theorem presenceEffect (h : StreamsSound s) {effect : PresenceEffect State}
    (hsound : PresenceSound effect.1) (hreleases : effect.1.releases = s.registry.releases) :
  StreamsSound (s.presenceEffect effect)
  := by
  have hsame := sameStreams_publish effect.2 { s with registry := effect.1 }
  obtain ⟨hstreams, hlisteners, hwatchers, hregistry⟩ :=
    publish_fields effect.2 { s with registry := effect.1 }
  have hget := getElem?_publish (s := { s with registry := effect.1 }) effect.2 h.watchers.sound
  unfold EventRoutes.presenceEffect
  constructor
  · rw [hregistry]
    exact hsound
  · rw [hlisteners]
    exact h.listeners.sameStreams (fun _ => rfl) hsame
  · rw [hwatchers]
    exact h.watchers.sameStreams (fun _ => rfl) hsame
  · rw [hregistry, hreleases]
    exact h.bindings.sameStreams hsame
  · rw [hstreams]
    exact h.slots.sameStreams hsame
  · intro i stream' hi
    rw [hget] at hi
    obtain ⟨stream, hstream, rfl⟩ := Option.map_eq_some_iff.mp hi
    exact h.flags i stream hstream

/-- Writing to streams keeps the invariant. -/
theorem opened (h : StreamsSound s) {opened : List (EventStream State)}
    (hsame : SameStreams s.opened opened)
    (hflags : ∀ (i : Nat) (stream : EventStream State), opened[i]? = some stream →
      stream.released = stream.cleaned) :
  StreamsSound { s with opened := opened }
  where
    registry := h.registry
    listeners := h.listeners.sameStreams (fun _ => rfl) hsame
    watchers := h.watchers.sameStreams (fun _ => rfl) hsame
    bindings := h.bindings.sameStreams hsame
    slots := h.slots.sameStreams hsame
    flags := hflags

theorem publishDriveEvent (h : StreamsSound s) (event : DriveEvent) :
  StreamsSound (s.publishDriveEvent event)
  := by
  apply h.opened (sameStreams_deliver _ _ _)
  intro i stream' hi
  rw [getElem?_deliver _ (h.listeners.sound.nodup _)] at hi
  obtain ⟨stream, hstream, rfl⟩ := Option.map_eq_some_iff.mp hi
  rw [apply_ite EventStream.released, apply_ite EventStream.cleaned]
  split
  · exact h.flags i stream hstream
  · exact h.flags i stream hstream

theorem write (h : StreamsSound s) (i : Nat) (frame : StreamFrame State) :
  StreamsSound { s with opened := s.opened.modify i (EventStream.write frame) }
  := by
  apply h.opened (sameStreams_deliver frame [i] s.opened)
  intro j stream' hj
  rw [getElem?_deliver _ (List.nodup_singleton i)] at hj
  obtain ⟨stream, hstream, rfl⟩ := Option.map_eq_some_iff.mp hj
  rw [apply_ite EventStream.released, apply_ite EventStream.cleaned]
  split
  · exact h.flags j stream hstream
  · exact h.flags j stream hstream

end StreamsSound

/-! ### Cleaning up -/

/-- What the release function of a stream does. -/
def EventStream.unbindEffect (stream : EventStream State) (now : Nat)
    (r : PresenceRegistry State) : PresenceEffect State :=
  match stream.binding with
  | none => (r, [])
  | some index => r.release index now

theorem unbind_eq (s : EventRoutes State) (stream : EventStream State) (now : Nat) :
  s.unbind stream now = s.presenceEffect (stream.unbindEffect now s.registry)
  := by
  unfold EventRoutes.unbind EventStream.unbindEffect
  cases stream.binding with
  | none => rfl
  | some index => rfl

theorem unsubscribe_eq (s : EventRoutes State) (i : Nat) (stream : EventStream State) :
  s.unsubscribe i stream = { s with listeners := match stream.listening with
    | none => s.listeners
    | some set => s.listeners.unsubscribe stream.driveId set i }
  := by
  unfold EventRoutes.unsubscribe
  cases stream.listening with
  | none => rfl
  | some set => rfl

theorem unsubscribePresence_eq (s : EventRoutes State) (i : Nat) (stream : EventStream State) :
  s.unsubscribePresence i stream = { s with watchers := match stream.watching with
    | none => s.watchers
    | some set => s.watchers.unsubscribe stream.driveId set i }
  := by
  unfold EventRoutes.unsubscribePresence
  cases stream.watching with
  | none => rfl
  | some set => rfl

theorem getElem?_modify_self {α : Type} {l : List α} {i : Nat} {a : α} (h : l[i]? = some a)
    (f : α → α) :
  (l.modify i f)[i]? = some (f a)
  := by simp [h]

theorem getElem?_modify_other {α : Type} (l : List α) {i j : Nat} (h : j ≠ i) (f : α → α) :
  (l.modify i f)[j]? = l[j]?
  := by simp [Ne.symm h]

/-- The presence of a stream after an effect, seen by the other streams. -/
def EventStream.watched (l : Listeners Text) (events : List (PresenceEvent State)) (i : Nat)
    (stream : EventStream State) : EventStream State :=
  { stream with
    frames := stream.frames ++
      (events.filter (fun event => i ∈ l.subscribers event.driveId)).map StreamFrame.presence }

/-- Cleaning up a stream keeps the invariant, ends the stream, and lets the others see what its
release function publishes. -/
theorem StreamsSound.cleanup_open {s : EventRoutes State} (h : StreamsSound s) {i : Nat}
    {stream : EventStream State} (hi : s.opened[i]? = some stream) (hopen : stream.cleaned = false)
    (now : Nat) :
  StreamsSound (s.cleanup i now) ∧
    (s.cleanup i now).registry = (stream.unbindEffect now s.registry).1 ∧
    (∃ ended, (s.cleanup i now).opened[i]? = some ended ∧ ended.cleaned = true) ∧
    ∀ j, j ≠ i → (s.cleanup i now).opened[j]? =
      (s.opened[j]?).map (EventStream.watched s.watchers (stream.unbindEffect now s.registry).2 j)
  := by
  have hslot := h.flags i stream hi
  rw [hopen] at hslot
  -- The streams after the first assignment of `cleanup`.
  generalize hmarked : s.opened.modify i (fun stream => { stream with cleaned := true }) = marked
  have hself : marked[i]? = some { stream with cleaned := true } := by
    rw [← hmarked]
    exact getElem?_modify_self hi _
  have hother : ∀ j, j ≠ i → marked[j]? = s.opened[j]? := by
    intro j hj
    rw [← hmarked]
    exact getElem?_modify_other _ hj _
  have hcleaned : ∀ stream', marked[i]? = some stream' → stream'.cleaned = true := by
    intro stream' hstream'
    rw [hself, Option.some_inj] at hstream'
    rw [← hstream']
  -- The subscriptions, without those of the stream.
  generalize hlisteners : (match stream.listening with
    | none => s.listeners
    | some set => s.listeners.unsubscribe stream.driveId set i) = listeners
  generalize hwatchers : (match stream.watching with
    | none => s.watchers
    | some set => s.watchers.unsubscribe stream.driveId set i) = watchers
  have hlistening : Subscriptions EventStream.listening listeners marked := by
    rw [← hlisteners]
    split
    case h_1 hset => exact h.listeners.ended_none hi hset hcleaned hother
    case h_2 set hset => exact h.listeners.ended hi hopen hset hcleaned hother
  have hwatching : Subscriptions EventStream.watching watchers marked := by
    rw [← hwatchers]
    split
    case h_1 hset => exact h.watchers.ended_none hi hset hcleaned hother
    case h_2 set hset => exact h.watchers.ended hi hopen hset hcleaned hother
  have hsubscribers : ∀ j, j ≠ i → ∀ driveId,
      (j ∈ watchers.subscribers driveId ↔ j ∈ s.watchers.subscribers driveId) := by
    intro j hj driveId
    rw [hwatching.mem_subscribers_iff, h.watchers.mem_subscribers_iff, hother j hj]
  -- The registry, without the binding of the stream.
  have hunbound : PresenceSound (stream.unbindEffect now s.registry).1 ∧
      match stream.binding with
      | none => (stream.unbindEffect now s.registry).1.releases = s.registry.releases
      | some index => ∃ h', s.registry.releases[index]? = some h' ∧
          (stream.unbindEffect now s.registry).1.releases =
            s.registry.releases.set index { h' with released := true } := by
    unfold EventStream.unbindEffect
    cases hbinding : stream.binding with
    | none => exact ⟨h.registry, rfl⟩
    | some index =>
        obtain ⟨h', hget, -, -, hreleased⟩ := h.bindings.holds i stream hi index hbinding
        refine ⟨(release_step h.registry index).sound h.registry, h', hget, ?_⟩
        exact releases_release hget (hreleased.trans hopen)
  generalize heffect : stream.unbindEffect now s.registry = effect at hunbound
  obtain ⟨hregistry, hreleases⟩ := hunbound
  have hbindings := h.bindings.ended hi hreleases hself hother
  have hslots := h.slots.ended hi hopen hself hother
  -- The events of the release function are published.
  let unsubscribed : EventRoutes State := ⟨s.streams, marked, listeners, watchers, effect.1⟩
  have hsame := sameStreams_publish effect.2 unsubscribed
  obtain ⟨hpstreams, hplisteners, hpwatchers, hpregistry⟩ := publish_fields effect.2 unsubscribed
  have hpublished := getElem?_publish (s := unsubscribed) effect.2 hwatching.sound
  have hunbind : (((({ s with opened := marked } : EventRoutes State).unsubscribe i
      stream).unsubscribePresence i stream).unbind stream now) =
      effect.2.foldl EventRoutes.publish unsubscribed := by
    rw [unsubscribe_eq, unsubscribePresence_eq, unbind_eq]
    dsimp only
    rw [hlisteners, hwatchers, heffect]
    rfl
  have hcleanup : s.cleanup i now =
      (effect.2.foldl EventRoutes.publish unsubscribed).releaseSlot i := by
    rw [← hunbind, ← hmarked]
    unfold EventRoutes.cleanup
    simp only [hi, hopen, Bool.false_eq_true, if_false]
  rw [hcleanup]
  generalize effect.2.foldl EventRoutes.publish unsubscribed = published at *
  have hpself := hpublished i
  rw [show unsubscribed.opened[i]? = _ from hself, Option.map_some] at hpself
  have hreleased : SameStreams published.opened
      (published.opened.modify i (fun stream => { stream with released := true })) := by
    apply List.ext_getElem?
    intro j
    rw [List.getElem?_map, List.getElem?_map]
    by_cases hj : j = i
    · subst hj
      rw [getElem?_modify_self hpself, hpself]
      rfl
    · rw [getElem?_modify_other _ hj]
  have hall : SameStreams marked
      (published.opened.modify i (fun stream => { stream with released := true })) :=
    Eq.trans hreleased hsame
  unfold EventRoutes.releaseSlot
  simp only [hpself, hslot, Bool.false_eq_true, if_false]
  refine ⟨?_, hpregistry, ?_, ?_⟩
  · constructor
    · rwa [show published.registry = effect.1 from hpregistry]
    · rw [show published.listeners = listeners from hplisteners]
      exact hlistening.sameStreams (fun _ => rfl) hall
    · rw [show published.watchers = watchers from hpwatchers]
      exact hwatching.sameStreams (fun _ => rfl) hall
    · rw [show published.registry = effect.1 from hpregistry]
      exact hbindings.sameStreams hall
    · rw [show published.streams = s.streams from hpstreams]
      exact hslots.sameStreams hall
    · intro j stream' hj
      by_cases hne : j = i
      · subst hne
        rw [getElem?_modify_self hpself, Option.some_inj] at hj
        rw [← hj]
      · rw [getElem?_modify_other _ hne, hpublished j,
          show unsubscribed.opened[j]? = _ from hother j hne] at hj
        obtain ⟨old, hold, rfl⟩ := Option.map_eq_some_iff.mp hj
        exact h.flags j old hold
  · exact ⟨_, getElem?_modify_self hpself _, rfl⟩
  · intro j hne
    rw [getElem?_modify_other _ hne, hpublished j,
      show unsubscribed.opened[j]? = _ from hother j hne]
    congr 1
    funext old
    unfold EventStream.watched
    have hfilter : effect.2.filter (fun event => j ∈ unsubscribed.watchers.subscribers event.driveId)
        = effect.2.filter (fun event => j ∈ s.watchers.subscribers event.driveId) := by
      apply List.filter_congr
      intro event _
      rw [decide_eq_decide]
      exact hsubscribers j hne event.driveId
    rw [hfilter]

end

end AgentFs

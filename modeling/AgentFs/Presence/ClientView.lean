import AgentFs.Presence.Calls
import AgentFs.Presence.Streams

/-!
# What a tab shows

The presence store of a tab keeps no session of its own user.  The events of a call of the
registry turn the sessions that it shows into those of the registry afterwards: a call publishes
one session or says of some that they left, and a session id that changes is of one user.
-/

namespace AgentFs

section

variable {State : Type}

/-! ### The events of a call -/

/-- The event says that a session left. -/
def PresenceEvent.Leaves : PresenceEvent State → Prop
  | .updated _ _ _ => False
  | .left _ _ _ _ => True

theorem remove_leaves {r : PresenceRegistry State} {driveId sessionId userId : Text} {now : Nat}
    {effect : PresenceEffect State} (h : r.remove driveId sessionId userId now = .ok effect) :
  ∀ event ∈ effect.2, event.Leaves
  := by
  unfold PresenceRegistry.remove at h
  split at h
  case h_1 =>
    cases h
    rintro event ⟨⟩
  case h_2 =>
    split at h
    case isTrue => cases h
    case isFalse =>
      cases h
      dsimp only
      split
      · intro event hevent
        rw [List.mem_singleton.mp hevent]
        exact trivial
      · rintro event ⟨⟩

theorem release_leaves (r : PresenceRegistry State) (index now : Nat) :
  ∀ event ∈ (r.release index now).2, event.Leaves
  := by
  unfold PresenceRegistry.release
  split
  case h_1 => rintro event ⟨⟩
  case h_2 =>
    split
    case isTrue => rintro event ⟨⟩
    case isFalse =>
      dsimp only
      split
      case isTrue =>
        split
        case h_1 effect hremove => exact remove_leaves hremove
        case h_2 => rintro event ⟨⟩
      case isFalse => rintro event ⟨⟩

theorem removeAll_leaves (now : Nat) (es : List (PresenceEntry State))
    (r : PresenceRegistry State) :
  ∀ event ∈ (r.removeAll now es).2, event.Leaves
  := by
  induction es generalizing r with
  | nil => rintro event ⟨⟩
  | cons e es ih =>
      have hentry : ∀ event ∈ (r.removeEntry e now).2, event.Leaves := by
        unfold PresenceRegistry.removeEntry
        split
        case h_1 effect hremove => exact remove_leaves hremove
        case h_2 => rintro event ⟨⟩
      intro event hevent
      obtain hevent | hevent := List.mem_append.mp hevent
      · exact hentry event hevent
      · exact ih _ event hevent

variable [DecidableEq State]

/-- A call publishes one session, or says of some that they left. -/
theorem call_events (r : PresenceRegistry State) (now : Nat) (call : PresenceCall State) :
  (∃ driveId session time, (r.call now call).2 = [.updated driveId session time]) ∨
    ∀ event ∈ (r.call now call).2, event.Leaves
  := by
  unfold PresenceRegistry.call
  cases hcall : r.call? now call with
  | error e =>
      right
      rintro event ⟨⟩
  | ok effect =>
      dsimp only
      cases call with
      | upsert driveId sessionId user state =>
          have hentry : ∀ (r : PresenceRegistry State) (e : PresenceEntry State),
              (r.upsertEntry e user state now).2 = [] ∨
                ∃ session, (r.upsertEntry e user state now).2 =
                  [.updated e.driveId session now] := by
            intro r e
            unfold PresenceRegistry.upsertEntry
            split
            · exact .inl rfl
            · exact .inr ⟨_, rfl⟩
          have hok : ∃ r' e, effect = PresenceRegistry.upsertEntry r' e user state now := by
            unfold PresenceRegistry.call? PresenceRegistry.upsert at hcall
            dsimp only at hcall
            split at hcall
            · cases hcall
            · split at hcall
              · cases hcall
              · split at hcall
                · cases hcall
                  exact ⟨_, _, rfl⟩
                · cases hcall
                  exact ⟨_, _, rfl⟩
          obtain ⟨r', e, rfl⟩ := hok
          obtain hnone | ⟨session, hsome⟩ := hentry r' e
          · right
            rw [hnone]
            rintro event ⟨⟩
          · exact .inl ⟨_, _, _, hsome⟩
      | remove driveId sessionId userId => exact .inr (remove_leaves hcall)
      | bind driveId sessionId userId =>
          right
          have hbind : effect.2 = [] := by
            unfold PresenceRegistry.call? PresenceRegistry.bind at hcall
            dsimp only at hcall
            split at hcall
            · cases hcall
            · cases hcall
              rfl
          rw [hbind]
          rintro event ⟨⟩
      | release index =>
          cases hcall
          exact .inr (release_leaves r index now)
      | sweep =>
          cases hcall
          exact .inr (removeAll_leaves now _ r)

omit [DecidableEq State]

/-! ### Receiving them -/

/-- The sessions are those of the drive, apart from those of the user. -/
def ShowsOthers (r : PresenceRegistry State) (userId driveId : Text)
    (sessions : List (PresenceSession State)) : Prop :=
  ∀ session, session ∈ sessions ↔ session ∈ r.snapshot driveId ∧ session.userId ≠ userId

/-- What the tab shows after events of the registry. -/
def receiveEvents (userId driveId : Text) (sessions : List (PresenceSession State))
    (events : List (PresenceEvent State)) : List (PresenceSession State) :=
  ((events.filter (fun event => event.driveId = driveId)).map StreamFrame.presence).foldl
    (receive userId) sessions

/-- The events turn whatever a tab shows of `r` into what it shows of `r'`. -/
def ShownAs (r r' : PresenceRegistry State) (events : List (PresenceEvent State)) : Prop :=
  ∀ userId driveId sessions, ShowsOthers r userId driveId sessions →
    ShowsOthers r' userId driveId (receiveEvents userId driveId sessions events)

theorem ShownAs.refl (r : PresenceRegistry State) :
  ShownAs r r []
  := fun _ _ _ h => h

theorem ShownAs.trans {r₁ r₂ r₃ : PresenceRegistry State}
    {events₁ events₂ : List (PresenceEvent State)} (h₁ : ShownAs r₁ r₂ events₁)
    (h₂ : ShownAs r₂ r₃ events₂) :
  ShownAs r₁ r₃ (events₁ ++ events₂)
  := by
  intro userId driveId sessions hsessions
  unfold receiveEvents
  rw [List.filter_append, List.map_append, List.foldl_append]
  exact h₂ userId driveId _ (h₁ userId driveId _ hsessions)

/-- A session that left is taken off the list, whoever the user of the tab is. -/
theorem mem_receive_of_leaves {event : PresenceEvent State} (h : event.Leaves) {userId : Text}
    {shown sessions : List (PresenceSession State)}
    (hshown : ∀ session, session ∈ shown ↔ session ∈ sessions ∧ session.userId ≠ userId)
    (session : PresenceSession State) :
  session ∈ receive userId shown (.presence event) ↔
    session ∈ replayEvent sessions event ∧ session.userId ≠ userId
  := by
  cases event with
  | updated driveId session' time => exact h.elim
  | left driveId sessionId userId' time =>
      unfold receive replayEvent
      dsimp only
      split
      case isTrue =>
        rw [List.mem_filter, List.mem_filter, hshown, and_right_comm]
      case isFalse hnone =>
        rw [List.mem_filter, hshown]
        constructor
        · rintro ⟨hmem, huser⟩
          refine ⟨⟨hmem, ?_⟩, huser⟩
          rw [decide_eq_true_iff]
          intro hid
          apply hnone
          exact List.any_eq_true.mpr ⟨session, (hshown session).mpr ⟨hmem, huser⟩, decide_eq_true hid⟩
        · rintro ⟨⟨hmem, -⟩, huser⟩
          exact ⟨hmem, huser⟩

theorem mem_receiveEvents_of_leaves {events : List (PresenceEvent State)}
    (h : ∀ event ∈ events, event.Leaves) {userId driveId : Text}
    {shown sessions : List (PresenceSession State)}
    (hshown : ∀ session, session ∈ shown ↔ session ∈ sessions ∧ session.userId ≠ userId)
    (session : PresenceSession State) :
  session ∈ receiveEvents userId driveId shown events ↔
    session ∈ replayEvents driveId sessions events ∧ session.userId ≠ userId
  := by
  unfold receiveEvents replayEvents
  have hleaves : ∀ event ∈ events.filter (fun event => event.driveId = driveId), event.Leaves := by
    intro event hevent
    exact h event (List.mem_of_mem_filter hevent)
  generalize events.filter (fun event => event.driveId = driveId) = events at hleaves
  induction events generalizing shown sessions with
  | nil => exact hshown session
  | cons event events ih =>
      apply ih
      · exact mem_receive_of_leaves (hleaves event List.mem_cons_self) hshown
      · intro event' hevent'
        exact hleaves event' (List.mem_cons_of_mem event hevent')

/-- The owner of a session id that stays in use is the same, so that the events of one session
concern the sessions of its user only. -/
theorem OwnersKept.snapshot {r r' : PresenceRegistry State} (hr : PresenceSound r)
    (hr' : PresenceSound r') (h : OwnersKept r r') {driveId : Text}
    {session session' : PresenceSession State} (hs : session ∈ r.snapshot driveId)
    (hs' : session' ∈ r'.snapshot driveId) (hid : session'.sessionId = session.sessionId) :
  session'.userId = session.userId
  := by
  obtain ⟨e, he, hattached, hdrive, hsession⟩ := PresenceChange.mem_snapshot.mp hs
  obtain ⟨e', he', hattached', hdrive', hsession'⟩ := PresenceChange.mem_snapshot.mp hs'
  obtain ⟨hkey, huser⟩ := hr.labelled e he session hsession
  obtain ⟨hkey', huser'⟩ := hr'.labelled e' he' session' hsession'
  rw [huser, huser']
  exact h driveId session.sessionId e he e' he' ⟨hattached, hdrive, hkey.symm⟩
    ⟨hattached', hdrive', hkey'.symm.trans hid⟩

/-- What a tab shows after the events of a call. -/
theorem call_shownAs [DecidableEq State] {r : PresenceRegistry State} (hr : PresenceSound r)
    (now : Nat) (call : PresenceCall State) :
  ShownAs r (r.call now call).1 (r.call now call).2
  := by
  obtain ⟨hsound, hreplays, howners⟩ := call_law hr now call
  intro userId driveId shown hshown session
  have hreplayed := hreplays driveId (r.snapshot driveId) (fun _ => Iff.rfl)
  rw [← hreplayed]
  obtain ⟨drive, updated, time, hevents⟩ | hleaves := call_events r now call
  · rw [hevents] at hreplayed ⊢
    by_cases hdrive : drive = driveId
    · subst hdrive
      have hone : ([.updated drive updated time] : List (PresenceEvent State)).filter
          (fun event => event.driveId = drive) = [.updated drive updated time] := by
        simp [PresenceEvent.driveId]
      unfold receiveEvents
      unfold replayEvents at hreplayed ⊢
      rw [hone] at hreplayed ⊢
      simp only [List.map_cons, List.map_nil, List.foldl_cons, List.foldl_nil] at hreplayed ⊢
      unfold receive
      unfold replayEvent at hreplayed ⊢
      dsimp only at hreplayed ⊢
      have hupdated := (hreplayed updated).mp (List.mem_append_right _ (List.mem_singleton_self _))
      have hown : ∀ old ∈ r.snapshot drive, old.sessionId = updated.sessionId →
          old.userId = updated.userId := by
        intro old hold hid
        exact (howners.snapshot hr hsound hold hupdated hid.symm).symm
      split
      case isTrue huser =>
        rw [hshown, List.mem_append, List.mem_filter, List.mem_singleton, decide_eq_true_iff]
        constructor
        · rintro ⟨hmem, hne⟩
          refine ⟨.inl ⟨hmem, ?_⟩, hne⟩
          intro hid
          exact hne ((hown session hmem hid).trans huser)
        · rintro ⟨⟨hmem, -⟩ | rfl, hne⟩
          · exact ⟨hmem, hne⟩
          · exact absurd huser hne
      case isFalse huser =>
        rw [List.mem_append, List.mem_append, List.mem_filter, List.mem_filter, hshown,
          List.mem_singleton]
        constructor
        · rintro (⟨⟨hmem, hne⟩, hid⟩ | rfl)
          · exact ⟨.inl ⟨hmem, hid⟩, hne⟩
          · exact ⟨.inr rfl, huser⟩
        · rintro ⟨⟨hmem, hid⟩ | rfl, hne⟩
          · exact .inl ⟨⟨hmem, hne⟩, hid⟩
          · exact .inr rfl
    · have hnone : ([.updated drive updated time] : List (PresenceEvent State)).filter
          (fun event => event.driveId = driveId) = [] := by
        simp [PresenceEvent.driveId, hdrive]
      unfold receiveEvents replayEvents
      rw [hnone]
      exact hshown session
  · exact mem_receiveEvents_of_leaves hleaves hshown session

end

end AgentFs

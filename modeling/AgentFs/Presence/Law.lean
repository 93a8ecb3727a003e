import Mathlib.Data.List.Nodup
import AgentFs.Presence.Registry

/-!
# The law of the presence registry

Whatever calls were made, an entry is in the map exactly while it has a session or a stream is
bound to it, its owner does not change, no user has more sessions in a drive than the limit, and
the events since a snapshot turn it into the current one.  Each call changes at most one entry,
apart from `sweep`, which removes entries one after the other; the invariant is kept by every
such change.
-/

namespace AgentFs

open Tabular

section

variable {State : Type}

/-! ### The invariant -/

/-- How many releases of an entry have not been called. -/
def openReleases (releases : List PresenceRelease) (ref : Nat) : Nat :=
  (releases.filter (fun h => h.ref = ref ∧ h.released = false)).length

/-- The release is one of the entry. -/
def PresenceRelease.Of (h : PresenceRelease) (e : PresenceEntry State) : Prop :=
  e.ref = h.ref ∧ e.driveId = h.driveId ∧ e.sessionId = h.sessionId ∧ e.userId = h.userId

/-- The session of the entry names its key and its owner. -/
def PresenceEntry.Labelled (e : PresenceEntry State) : Prop :=
  ∀ s ∈ e.session, s.sessionId = e.sessionId ∧ s.userId = e.userId

/-- The map holds the entry exactly while it has a session or a stream is bound to it. -/
def PresenceEntry.Occupied (e : PresenceEntry State) : Prop :=
  e.attached = true ↔ e.session.isSome ∨ 0 < e.bindings

/-- The entries have one key and one owner. -/
def PresenceEntry.SameKey (e e' : PresenceEntry State) : Prop :=
  e'.ref = e.ref ∧ e'.driveId = e.driveId ∧ e'.sessionId = e.sessionId ∧ e'.userId = e.userId

/-- The invariant. -/
structure PresenceSound (r : PresenceRegistry State) : Prop where
  refs : Keyed PresenceEntry.ref r.entries
  bounded : ∀ e ∈ r.entries, e.ref < r.entries.length
  unique : ∀ e ∈ r.entries, ∀ f ∈ r.entries, e.attached = true → f.attached = true →
    e.driveId = f.driveId → e.sessionId = f.sessionId → e = f
  occupied : ∀ e ∈ r.entries, e.Occupied
  labelled : ∀ e ∈ r.entries, e.Labelled
  counted : ∀ e ∈ r.entries, e.bindings = (openReleases r.releases e.ref : Int)
  owned : ∀ h ∈ r.releases, ∃ e ∈ r.entries, h.Of e
  limited : ∀ driveId userId, (r.sessionsOf driveId userId).length ≤ maxPresenceSessions

/-! ### One change -/

/-- What is published of a change. -/
inductive PresencePublished (e e' : PresenceEntry State) : List (PresenceEvent State) → Prop where
  | nothing (h : e'.session = e.session) : PresencePublished e e' []
  | updated (s : PresenceSession State) (h : e'.session = some s) (time : Nat) :
      PresencePublished e e' [.updated e.driveId s time]
  | left (userId : Text) (h : e'.session = none) (time : Nat) :
      PresencePublished e e' [.left e.driveId e.sessionId userId time]

/-- The events are of the drive of the entry. -/
theorem PresencePublished.driveId {e e' : PresenceEntry State}
    {events : List (PresenceEvent State)} (h : PresencePublished e e' events)
    {event : PresenceEvent State} (hmem : event ∈ events) :
  event.driveId = e.driveId
  := by
  cases h with
  | nothing => cases hmem
  | updated s _ time =>
      rw [List.mem_singleton.mp hmem]
      rfl
  | left userId _ time =>
      rw [List.mem_singleton.mp hmem]
      rfl

/-- The entry `e` of `r` becomes `e'`. -/
structure PresenceChange (r r' : PresenceRegistry State) (e e' : PresenceEntry State)
    (events : List (PresenceEvent State)) : Prop where
  mem : e ∈ r.entries
  entries : r'.entries = replaceRow PresenceEntry.ref e' r.entries
  sameKey : e.SameKey e'
  free : ∀ f ∈ r.entries, f.HeldAt e.driveId e.sessionId → f = e
  occupied : e'.Occupied
  labelled : e'.Labelled
  counted : e'.bindings = (openReleases r'.releases e.ref : Int)
  others : ∀ ref, ref ≠ e.ref → openReleases r'.releases ref = openReleases r.releases ref
  owned : ∀ h ∈ r'.releases, (∃ f ∈ r.entries, h.Of f) ∨ h.Of e
  limited : (e'.session.isSome → e.attached = true ∧ e.session.isSome) ∨
    (r.sessionsOf e.driveId e.userId).length < maxPresenceSessions
  published : PresencePublished e e' events

namespace PresenceChange

variable {r r' : PresenceRegistry State} {e e' : PresenceEntry State}
  {events : List (PresenceEvent State)}

theorem mem_entries (h : PresenceChange r r' e e' events) {f : PresenceEntry State} :
  f ∈ r'.entries ↔ f = e' ∨ f ∈ r.entries ∧ f.ref ≠ e.ref
  := by
  rw [h.entries]
  apply mem_replaceRow h.mem h.sameKey.1

theorem sessionsOf_le (hr : PresenceSound r) (h : PresenceChange r r' e e' events)
    (driveId userId : Text) :
  (r'.sessionsOf driveId userId).length ≤ maxPresenceSessions
  := by
  have hlimited := hr.limited driveId userId
  unfold PresenceRegistry.sessionsOf at hlimited ⊢
  rw [h.entries]
  obtain ⟨-, hdrive, -, huser⟩ := h.sameKey
  rcases h.limited with hsession | hfew
  · apply Nat.le_trans _ hlimited
    apply hr.refs.length_filter_replaceRow_le_of_imp h.mem h.sameKey.1
    intro hp
    rw [decide_eq_true_iff] at hp ⊢
    obtain ⟨-, hd, hs, hu⟩ := hp
    obtain ⟨hattached, hs⟩ := hsession hs
    exact ⟨hattached, hdrive ▸ hd, hs, huser ▸ hu⟩
  · by_cases hkey : driveId = e.driveId ∧ userId = e.userId
    · obtain ⟨rfl, rfl⟩ := hkey
      apply Nat.le_trans (hr.refs.length_filter_replaceRow_le e' _)
      exact hfew
    · apply Nat.le_trans _ hlimited
      apply hr.refs.length_filter_replaceRow_le_of_imp h.mem h.sameKey.1
      intro hp
      rw [decide_eq_true_iff] at hp
      obtain ⟨-, hd, -, hu⟩ := hp
      rw [hdrive] at hd
      rw [huser] at hu
      exact absurd ⟨hd.symm, hu.symm⟩ hkey

theorem sound (hr : PresenceSound r) (h : PresenceChange r r' e e' events) :
  PresenceSound r'
  where
    refs := by
      rw [h.entries]
      apply hr.refs.replaceRow
    bounded := by
      intro f hf
      have hlength : r'.entries.length = r.entries.length := by
        rw [h.entries]
        apply List.length_map
      rw [hlength]
      rcases h.mem_entries.mp hf with rfl | ⟨hf, -⟩
      · rw [h.sameKey.1]
        apply hr.bounded e h.mem
      · apply hr.bounded f hf
    unique := by
      obtain ⟨href, hdrive, hsession, -⟩ := h.sameKey
      have hother : ∀ f ∈ r.entries, f.ref ≠ e.ref → f.attached = true →
          f.driveId = e'.driveId → f.sessionId = e'.sessionId → False := by
        intro f hf hne hattached hd hs
        apply hne
        rw [h.free f hf ⟨hattached, hd.trans hdrive, hs.trans hsession⟩]
      intro f hf g hg hfa hga hd hs
      rcases h.mem_entries.mp hf with rfl | ⟨hf, hfe⟩
      · rcases h.mem_entries.mp hg with rfl | ⟨hg, hge⟩
        · rfl
        · exact (hother g hg hge hga hd.symm hs.symm).elim
      · rcases h.mem_entries.mp hg with rfl | ⟨hg, hge⟩
        · exact (hother f hf hfe hfa hd hs).elim
        · apply hr.unique f hf g hg hfa hga hd hs
    occupied := by
      intro f hf
      rcases h.mem_entries.mp hf with rfl | ⟨hf, -⟩
      · exact h.occupied
      · apply hr.occupied f hf
    labelled := by
      intro f hf
      rcases h.mem_entries.mp hf with rfl | ⟨hf, -⟩
      · exact h.labelled
      · apply hr.labelled f hf
    counted := by
      intro f hf
      rcases h.mem_entries.mp hf with rfl | ⟨hf, hne⟩
      · rw [h.sameKey.1]
        exact h.counted
      · rw [h.others f.ref hne]
        apply hr.counted f hf
    owned := by
      have he : ∀ release : PresenceRelease, release.Of e → ∃ f ∈ r'.entries, release.Of f := by
        rintro release ⟨href, hdrive, hsession, huser⟩
        obtain ⟨href', hdrive', hsession', huser'⟩ := h.sameKey
        exact ⟨e', h.mem_entries.mpr (.inl rfl), href'.trans href, hdrive'.trans hdrive,
          hsession'.trans hsession, huser'.trans huser⟩
      intro release hrelease
      rcases h.owned release hrelease with ⟨f, hf, hof⟩ | hof
      · by_cases hfe : f.ref = e.ref
        · rw [hr.refs.eq_of_mem hf h.mem hfe] at hof
          apply he release hof
        · exact ⟨f, h.mem_entries.mpr (.inr ⟨hf, hfe⟩), hof⟩
      · apply he release hof
    limited := h.sessionsOf_le hr

/-! #### Events -/

/-- An entry other than `e` shows the session in the drive. -/
def ShownBeside (r : PresenceRegistry State) (e : PresenceEntry State) (driveId : Text)
    (s : PresenceSession State) : Prop :=
  ∃ f ∈ r.entries, f.ref ≠ e.ref ∧ f.attached = true ∧ f.driveId = driveId ∧ f.session = some s

theorem mem_snapshot {driveId : Text} {s : PresenceSession State} :
  s ∈ r.snapshot driveId ↔
    ∃ f ∈ r.entries, f.attached = true ∧ f.driveId = driveId ∧ f.session = some s
  := by
  unfold PresenceRegistry.snapshot
  rw [List.mem_filterMap]
  constructor
  · rintro ⟨f, hf, hs⟩
    obtain ⟨hf, hp⟩ := List.mem_filter.mp hf
    rw [decide_eq_true_iff] at hp
    exact ⟨f, hf, hp.1, hp.2, hs⟩
  · rintro ⟨f, hf, hattached, hdrive, hs⟩
    exact ⟨f, List.mem_filter.mpr ⟨hf, decide_eq_true ⟨hattached, hdrive⟩⟩, hs⟩

theorem attached_of_session {f : PresenceEntry State} (hf : f.Occupied)
    {s : PresenceSession State} (hs : f.session = some s) :
  f.attached = true
  := by
  apply hf.mpr
  rw [hs]
  exact .inl rfl

/-- The snapshot before the change. -/
theorem mem_snapshot_before (hr : PresenceSound r) (h : PresenceChange r r' e e' events)
    {driveId : Text} {s : PresenceSession State} :
  s ∈ r.snapshot driveId ↔
    (e.driveId = driveId ∧ e.session = some s) ∨ ShownBeside r e driveId s
  := by
  rw [mem_snapshot]
  constructor
  · rintro ⟨f, hf, hattached, hdrive, hs⟩
    by_cases hfe : f.ref = e.ref
    · rw [hr.refs.eq_of_mem hf h.mem hfe] at hdrive hs
      exact .inl ⟨hdrive, hs⟩
    · exact .inr ⟨f, hf, hfe, hattached, hdrive, hs⟩
  · rintro (⟨hdrive, hs⟩ | ⟨f, hf, -, hattached, hdrive, hs⟩)
    · exact ⟨e, h.mem, attached_of_session (hr.occupied e h.mem) hs, hdrive, hs⟩
    · exact ⟨f, hf, hattached, hdrive, hs⟩

/-- The snapshot after the change. -/
theorem mem_snapshot_after (h : PresenceChange r r' e e' events)
    {driveId : Text} {s : PresenceSession State} :
  s ∈ r'.snapshot driveId ↔
    (e.driveId = driveId ∧ e'.session = some s) ∨ ShownBeside r e driveId s
  := by
  rw [mem_snapshot]
  constructor
  · rintro ⟨f, hf, hattached, hdrive, hs⟩
    rcases h.mem_entries.mp hf with rfl | ⟨hf, hfe⟩
    · exact .inl ⟨h.sameKey.2.1.symm.trans hdrive, hs⟩
    · exact .inr ⟨f, hf, hfe, hattached, hdrive, hs⟩
  · rintro (⟨hdrive, hs⟩ | ⟨f, hf, hfe, hattached, hdrive, hs⟩)
    · exact ⟨e', h.mem_entries.mpr (.inl rfl), attached_of_session h.occupied hs,
        h.sameKey.2.1.trans hdrive, hs⟩
    · exact ⟨f, h.mem_entries.mpr (.inr ⟨hf, hfe⟩), hattached, hdrive, hs⟩

/-- No other session of the drive has the id of the entry. -/
theorem sessionId_ne_of_shownBeside (hr : PresenceSound r) (h : PresenceChange r r' e e' events)
    {s : PresenceSession State} (hs : ShownBeside r e e.driveId s) :
  s.sessionId ≠ e.sessionId
  := by
  obtain ⟨f, hf, hfe, hattached, hdrive, hs⟩ := hs
  intro hid
  apply hfe
  rw [h.free f hf ⟨hattached, hdrive, ((hr.labelled f hf s hs).1).symm.trans hid⟩]

/-- The change removes the sessions with the id of the entry, apart from its new one. -/
theorem mem_snapshot_iff (hr : PresenceSound r) (h : PresenceChange r r' e e' events)
    {s : PresenceSession State} :
  s ∈ r'.snapshot e.driveId ↔
    e'.session = some s ∨ s ∈ r.snapshot e.driveId ∧ s.sessionId ≠ e.sessionId
  := by
  rw [h.mem_snapshot_after, h.mem_snapshot_before hr]
  constructor
  · rintro (⟨-, hs⟩ | hs)
    · exact .inl hs
    · exact .inr ⟨.inr hs, h.sessionId_ne_of_shownBeside hr hs⟩
  · rintro (hs | ⟨⟨-, hs⟩ | hs, hne⟩)
    · exact .inl ⟨rfl, hs⟩
    · exact absurd (hr.labelled e h.mem s hs).1 hne
    · exact .inr hs

end PresenceChange

/-- The events turn every snapshot of `r` into one of `r'`. -/
def ReplaysTo (r r' : PresenceRegistry State) (events : List (PresenceEvent State)) : Prop :=
  ∀ driveId sessions, (∀ s, s ∈ sessions ↔ s ∈ r.snapshot driveId) →
    ∀ s, s ∈ replayEvents driveId sessions events ↔ s ∈ r'.snapshot driveId

theorem PresenceChange.replays {r r' : PresenceRegistry State} {e e' : PresenceEntry State}
    {events : List (PresenceEvent State)} (hr : PresenceSound r)
    (h : PresenceChange r r' e e' events) :
  ReplaysTo r r' events
  := by
  intro driveId sessions hsessions s
  unfold replayEvents
  by_cases hdrive : e.driveId = driveId
  · subst hdrive
    have hall : events.filter (fun event => event.driveId = e.driveId) = events := by
      rw [List.filter_eq_self]
      intro event hevent
      apply decide_eq_true (h.published.driveId hevent)
    rw [hall, h.mem_snapshot_iff hr, ← hsessions]
    rcases h.published with hsame | ⟨session, hsession, time⟩ | ⟨userId, hnone, time⟩
    · rw [List.foldl_nil, hsame, hsessions]
      constructor
      · intro hs
        rw [h.mem_snapshot_before hr] at hs ⊢
        rcases hs with ⟨-, hs⟩ | hs
        · exact .inl hs
        · exact .inr ⟨.inr hs, h.sessionId_ne_of_shownBeside hr hs⟩
      · rintro (hs | ⟨hs, -⟩)
        · rw [h.mem_snapshot_before hr]
          exact .inl ⟨rfl, hs⟩
        · exact hs
    · have hid : session.sessionId = e.sessionId :=
        (h.labelled session hsession).1.trans h.sameKey.2.2.1
      rw [List.foldl_cons, List.foldl_nil, hsession, Option.some_inj]
      unfold replayEvent
      rw [List.mem_append, List.mem_singleton, List.mem_filter, decide_eq_true_iff, hid,
        or_comm, eq_comm]
    · rw [List.foldl_cons, List.foldl_nil, hnone]
      unfold replayEvent
      rw [List.mem_filter, decide_eq_true_iff]
      simp
  · have hnone : events.filter (fun event => event.driveId = driveId) = [] := by
      rw [List.filter_eq_nil_iff]
      intro event hevent
      rw [decide_eq_true_iff, h.published.driveId hevent]
      exact hdrive
    rw [hnone, List.foldl_nil, hsessions, h.mem_snapshot_before hr, h.mem_snapshot_after]
    simp [hdrive]

end

end AgentFs

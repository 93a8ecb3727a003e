import AgentFs.Presence.Law

/-!
# The calls of the presence registry

Every call other than `sweep` changes one entry, perhaps one that it has just made, and `sweep`
removes entries one after the other.  The law of the registry follows for all runs.
-/

namespace AgentFs

open Tabular

section

variable {State : Type}

/-! ### Entries and releases -/

theorem PresenceRegistry.mem_of_find {r : PresenceRegistry State} {driveId sessionId : Text}
    {e : PresenceEntry State} (h : r.find driveId sessionId = some e) :
  e ∈ r.entries ∧ e.HeldAt driveId sessionId
  := by
  have hheld := List.find?_some h
  rw [decide_eq_true_iff] at hheld
  exact ⟨List.mem_of_find?_eq_some h, hheld⟩

theorem PresenceRegistry.not_heldAt_of_find {r : PresenceRegistry State}
    {driveId sessionId : Text} (h : r.find driveId sessionId = none) {e : PresenceEntry State}
    (he : e ∈ r.entries) :
  ¬ e.HeldAt driveId sessionId
  := by
  have hnone := List.find?_eq_none.mp h e he
  rwa [decide_eq_true_iff] at hnone

/-- At most one entry is held at a key. -/
theorem PresenceSound.eq_of_heldAt {r : PresenceRegistry State} (hr : PresenceSound r)
    {e f : PresenceEntry State} (he : e ∈ r.entries) (hf : f ∈ r.entries)
    {driveId sessionId : Text} (hea : e.HeldAt driveId sessionId)
    (hfa : f.HeldAt driveId sessionId) :
  f = e
  := hr.unique f hf e he hfa.1 hea.1 (hfa.2.1.trans hea.2.1.symm) (hfa.2.2.trans hea.2.2.symm)

/-- An entry is found at its key. -/
theorem PresenceRegistry.find_eq_some {r : PresenceRegistry State} {e : PresenceEntry State}
    (he : e ∈ r.entries) {driveId sessionId : Text} (hea : e.HeldAt driveId sessionId)
    (hfree : ∀ f ∈ r.entries, f.HeldAt driveId sessionId → f = e) :
  r.find driveId sessionId = some e
  := by
  cases hfind : r.find driveId sessionId with
  | none => exact absurd hea (not_heldAt_of_find hfind he)
  | some f =>
      obtain ⟨hf, hfa⟩ := mem_of_find hfind
      rw [hfree f hf hfa]

/-- Updating an entry is replacing it. -/
theorem PresenceSound.update_entries {r : PresenceRegistry State} (hr : PresenceSound r)
    {e : PresenceEntry State} (he : e ∈ r.entries)
    {f : PresenceEntry State → PresenceEntry State} (hf : (f e).ref = e.ref) :
  (r.update e.ref f).entries = replaceRow PresenceEntry.ref (f e) r.entries
  := hr.refs.map_eq_replaceRow he hf

theorem openReleases_append (releases : List PresenceRelease) (h : PresenceRelease)
    (hopen : h.released = false) (ref : Nat) :
  openReleases (releases ++ [h]) ref = openReleases releases ref + if ref = h.ref then 1 else 0
  := by
  unfold openReleases
  rw [List.filter_append, List.length_append]
  congr 1
  by_cases href : ref = h.ref
  · simp [href, hopen]
  · simp [href, Ne.symm href]

/-- Calling a release. -/
theorem openReleases_set {releases : List PresenceRelease} {index : Nat} {h : PresenceRelease}
    (hindex : releases[index]? = some h) (hopen : h.released = false) (ref : Nat) :
  openReleases (releases.set index { h with released := true }) ref +
      (if ref = h.ref then 1 else 0) =
    openReleases releases ref
  := by
  obtain ⟨hlt, hget⟩ := List.getElem?_eq_some_iff.mp hindex
  have hle := List.boole_getElem_le_countP
    (p := fun h : PresenceRelease => decide (h.ref = ref ∧ h.released = false)) hlt
  unfold openReleases
  rw [← List.countP_eq_length_filter, ← List.countP_eq_length_filter, List.countP_set hlt]
  rw [hget] at hle ⊢
  dsimp only at hle ⊢
  have hcalled : decide (h.ref = ref ∧ true = false) = false := by simp
  rw [hcalled]
  by_cases href : h.ref = ref
  · rw [decide_eq_true ⟨href, hopen⟩, if_pos rfl] at hle ⊢
    rw [if_neg Bool.false_ne_true, if_pos href.symm]
    omega
  · rw [decide_eq_false (fun hand => href hand.1), if_neg Bool.false_ne_true,
      if_neg (Ne.symm href)]
    rfl

/-! ### Making an entry -/

/-- An entry that is not in the map of its drive yet. -/
def PresenceRegistry.fresh (r : PresenceRegistry State) (driveId sessionId userId : Text)
    (now : Nat) : PresenceEntry State :=
  ⟨r.entries.length, driveId, sessionId, userId, none, none, now, 0, false⟩

/-- The registry with a fresh entry. -/
def PresenceRegistry.prepare (r : PresenceRegistry State) (driveId sessionId userId : Text)
    (now : Nat) : PresenceRegistry State :=
  { r with entries := r.entries ++ [r.fresh driveId sessionId userId now] }

section

variable {r : PresenceRegistry State} {driveId sessionId userId : Text} {now : Nat}

theorem mem_prepare {e : PresenceEntry State} :
  e ∈ (r.prepare driveId sessionId userId now).entries ↔
    e ∈ r.entries ∨ e = r.fresh driveId sessionId userId now
  := by
  unfold PresenceRegistry.prepare
  rw [List.mem_append, List.mem_singleton]

theorem PresenceSound.openReleases_length (hr : PresenceSound r) :
  openReleases r.releases r.entries.length = 0
  := by
  unfold openReleases
  rw [List.length_eq_zero_iff, List.filter_eq_nil_iff]
  intro h hmem
  rw [decide_eq_true_iff]
  rintro ⟨href, -⟩
  obtain ⟨e, he, hof⟩ := hr.owned h hmem
  have hlt := hr.bounded e he
  rw [hof.1, href] at hlt
  exact Nat.lt_irrefl _ hlt

theorem PresenceSound.prepare (hr : PresenceSound r) :
  PresenceSound (r.prepare driveId sessionId userId now)
  where
    refs := by
      apply hr.refs.concat
      intro e he
      apply Nat.ne_of_lt (hr.bounded e he)
    bounded := by
      intro e he
      have hlength : (r.prepare driveId sessionId userId now).entries.length =
          r.entries.length + 1 := List.length_append
      rw [hlength]
      rcases mem_prepare.mp he with he | rfl
      · apply Nat.lt_succ_of_lt (hr.bounded e he)
      · apply Nat.lt_succ_self
    unique := by
      intro e he f hf hea hfa
      rcases mem_prepare.mp he with he | rfl
      · rcases mem_prepare.mp hf with hf | rfl
        · apply hr.unique e he f hf hea hfa
        · cases hfa
      · cases hea
    occupied := by
      intro e he
      rcases mem_prepare.mp he with he | rfl
      · apply hr.occupied e he
      · simp [PresenceEntry.Occupied, PresenceRegistry.fresh]
    labelled := by
      intro e he
      rcases mem_prepare.mp he with he | rfl
      · apply hr.labelled e he
      · rintro s ⟨⟩
    counted := by
      intro e he
      rcases mem_prepare.mp he with he | rfl
      · apply hr.counted e he
      · show (0 : Int) = (openReleases r.releases r.entries.length : Int)
        rw [hr.openReleases_length]
        rfl
    owned := by
      intro h hmem
      obtain ⟨e, he, hof⟩ := hr.owned h hmem
      exact ⟨e, mem_prepare.mpr (.inl he), hof⟩
    limited := by
      intro d u
      have hsame : (r.prepare driveId sessionId userId now).sessionsOf d u = r.sessionsOf d u := by
        unfold PresenceRegistry.sessionsOf PresenceRegistry.prepare
        rw [List.filter_append]
        simp [PresenceRegistry.fresh]
      rw [hsame]
      apply hr.limited d u

theorem sessionsOf_prepare (d u : Text) :
  (r.prepare driveId sessionId userId now).sessionsOf d u = r.sessionsOf d u
  := by
  unfold PresenceRegistry.sessionsOf PresenceRegistry.prepare
  rw [List.filter_append]
  simp [PresenceRegistry.fresh]

theorem snapshot_prepare (d : Text) :
  (r.prepare driveId sessionId userId now).snapshot d = r.snapshot d
  := by
  unfold PresenceRegistry.snapshot PresenceRegistry.prepare
  rw [List.filter_append]
  simp [PresenceRegistry.fresh]

/-- Updating an entry that was just made is replacing the fresh one. -/
theorem PresenceSound.create_update_entries (hr : PresenceSound r)
    {f : PresenceEntry State → PresenceEntry State}
    (hf : (f ⟨r.entries.length, driveId, sessionId, userId, none, none, now, 0, true⟩).ref =
      r.entries.length) :
  ((r.create driveId sessionId userId now).update r.entries.length f).entries =
    replaceRow PresenceEntry.ref
      (f ⟨r.entries.length, driveId, sessionId, userId, none, none, now, 0, true⟩)
      (r.prepare driveId sessionId userId now).entries
  := by
  have hold : ∀ e ∈ r.entries, e.ref ≠ r.entries.length := by
    intro e he
    apply Nat.ne_of_lt (hr.bounded e he)
  unfold PresenceRegistry.update PresenceRegistry.create PresenceRegistry.prepare replaceRow
  dsimp only
  rw [List.map_append, List.map_append, hf]
  congr 1
  · apply List.map_congr_left
    intro e he
    rw [if_neg (hold e he), if_neg (hold e he)]
  · rw [List.map_singleton, List.map_singleton, if_pos rfl]
    exact congrArg (fun e => [e]) (if_pos rfl).symm

theorem free_prepare (hnone : r.find driveId sessionId = none) :
  ∀ f ∈ (r.prepare driveId sessionId userId now).entries, f.HeldAt driveId sessionId →
    f = r.fresh driveId sessionId userId now
  := by
  intro f hf hfa
  rcases mem_prepare.mp hf with hf | rfl
  · exact absurd hfa (PresenceRegistry.not_heldAt_of_find hnone hf)
  · rfl

end

/-! ### Steps -/

/-- What a call other than `sweep` does: nothing, or one change of an entry, perhaps of a fresh
one. -/
inductive PresenceStep (r : PresenceRegistry State) :
    PresenceRegistry State → List (PresenceEvent State) → Prop where
  | idle : PresenceStep r r []
  | change {r' : PresenceRegistry State} {e e' : PresenceEntry State}
      {events : List (PresenceEvent State)} (h : PresenceChange r r' e e' events) :
      PresenceStep r r' events
  | create (driveId sessionId userId : Text) (now : Nat) {r' : PresenceRegistry State}
      {e' : PresenceEntry State} {events : List (PresenceEvent State)}
      (h : PresenceChange (r.prepare driveId sessionId userId now) r'
        (r.fresh driveId sessionId userId now) e' events) :
      PresenceStep r r' events

theorem PresenceStep.sound {r r' : PresenceRegistry State} {events : List (PresenceEvent State)}
    (hr : PresenceSound r) (h : PresenceStep r r' events) :
  PresenceSound r'
  := by
  cases h with
  | idle => exact hr
  | change h => apply h.sound hr
  | create driveId sessionId userId now h => apply h.sound hr.prepare

theorem PresenceStep.replays {r r' : PresenceRegistry State}
    {events : List (PresenceEvent State)} (hr : PresenceSound r) (h : PresenceStep r r' events) :
  ReplaysTo r r' events
  := by
  cases h with
  | idle =>
      intro driveId sessions hsessions
      exact hsessions
  | change h => apply h.replays hr
  | create driveId sessionId userId now h =>
      intro d sessions hsessions
      apply h.replays hr.prepare
      intro s
      rw [snapshot_prepare]
      apply hsessions

/-- A key that is in use before and after has the same owner. -/
def OwnersKept (r r' : PresenceRegistry State) : Prop :=
  ∀ driveId sessionId, ∀ e ∈ r.entries, ∀ e' ∈ r'.entries, e.HeldAt driveId sessionId →
    e'.HeldAt driveId sessionId → e'.userId = e.userId

theorem PresenceChange.ownersKept {r r' : PresenceRegistry State} {e e' : PresenceEntry State}
    {events : List (PresenceEvent State)} (hr : PresenceSound r)
    (h : PresenceChange r r' e e' events) :
  OwnersKept r r'
  := by
  obtain ⟨-, hdrive, hsession, huser⟩ := h.sameKey
  intro driveId sessionId f hf f' hf' hheld hheld'
  rcases h.mem_entries.mp hf' with rfl | ⟨hf', -⟩
  · have hfe : f = e := by
      apply h.free f hf
      refine ⟨hheld.1, ?_, ?_⟩
      · rw [hheld.2.1, ← hheld'.2.1, hdrive]
      · rw [hheld.2.2, ← hheld'.2.2, hsession]
    rw [hfe, huser]
  · rw [hr.eq_of_heldAt hf hf' hheld hheld']

theorem PresenceStep.ownersKept {r r' : PresenceRegistry State}
    {events : List (PresenceEvent State)} (hr : PresenceSound r) (h : PresenceStep r r' events) :
  OwnersKept r r'
  := by
  cases h with
  | idle =>
      intro driveId sessionId e he e' he' hheld hheld'
      rw [hr.eq_of_heldAt he he' hheld hheld']
  | change h => apply h.ownersKept hr
  | create _ _ _ _ h =>
      intro driveId sessionId e he e' he'
      apply h.ownersKept hr.prepare driveId sessionId e (mem_prepare.mpr (.inl he)) e' he'

/-! ### Upsert -/

section

variable {r r' : PresenceRegistry State} {e e' : PresenceEntry State} {now : Nat}

/-- Giving an entry a session. -/
theorem PresenceSound.upserted (hr : PresenceSound r) (he : e ∈ r.entries)
    (hentries : r'.entries = replaceRow PresenceEntry.ref e' r.entries)
    (hreleases : r'.releases = r.releases) (hkey : e.SameKey e')
    (hfree : ∀ f ∈ r.entries, f.HeldAt e.driveId e.sessionId → f = e)
    (hattached : e'.attached = true) (hbindings : e'.bindings = e.bindings)
    {s : PresenceSession State} (hsession : e'.session = some s)
    (hlabel : s.sessionId = e.sessionId ∧ s.userId = e.userId)
    (hlimited : e.attached = true ∧ e.session.isSome ∨
      (r.sessionsOf e.driveId e.userId).length < maxPresenceSessions)
    {events : List (PresenceEvent State)} (hpublished : PresencePublished e e' events) :
  PresenceChange r r' e e' events
  where
    mem := he
    entries := hentries
    sameKey := hkey
    free := hfree
    occupied := by
      unfold PresenceEntry.Occupied
      rw [hattached, hsession]
      simp
    labelled := by
      intro t ht
      rw [hsession] at ht
      cases ht
      rw [hkey.2.2.1, hkey.2.2.2]
      exact hlabel
    counted := by
      rw [hbindings, hreleases]
      apply hr.counted e he
    others := by
      intro ref _
      rw [hreleases]
    owned := by
      intro h hmem
      rw [hreleases] at hmem
      exact .inl (hr.owned h hmem)
    limited := by
      rcases hlimited with hshown | hfew
      · exact .inl (fun _ => hshown)
      · exact .inr hfew
    published := hpublished

variable [DecidableEq State]

/-- `upsertEntry` updates the entry: it keeps its session and publishes nothing, or gives it a
new one and publishes that. -/
theorem upsertEntry_cases (r : PresenceRegistry State) (e : PresenceEntry State)
    (user : PresenceUser) (state : State) (now : Nat) :
  ∃ f events, r.upsertEntry e user state now = (r.update e.ref f, events) ∧
    (∀ x : PresenceEntry State, x.SameKey (f x) ∧ (f x).attached = x.attached ∧
      (f x).bindings = x.bindings) ∧
    ((events = [] ∧ e.session.isSome ∧ (f e).session = e.session) ∨
      ∃ s, events = [.updated e.driveId s now] ∧ (f e).session = some s ∧
        s.sessionId = e.sessionId ∧ s.userId = user.id)
  := by
  unfold PresenceRegistry.upsertEntry
  split
  · rename_i hsame
    exact ⟨_, _, rfl, fun x => ⟨⟨rfl, rfl, rfl, rfl⟩, rfl, rfl⟩, .inl ⟨rfl, hsame.1, rfl⟩⟩
  · exact ⟨_, _, rfl, fun x => ⟨⟨rfl, rfl, rfl, rfl⟩, rfl, rfl⟩,
      .inr ⟨_, rfl, rfl, rfl, rfl⟩⟩

theorem upsert_step (hr : PresenceSound r) {driveId sessionId : Text} {user : PresenceUser}
    {state : State} {effect : PresenceEffect State}
    (h : r.upsert driveId sessionId user state now = .ok effect) :
  PresenceStep r effect.1 effect.2
  := by
  unfold PresenceRegistry.upsert at h
  dsimp only at h
  split_ifs at h with howner hmany
  cases hfind : r.find driveId sessionId with
  | some e =>
      rw [hfind] at h howner hmany
      cases h
      obtain ⟨he, hheld⟩ := PresenceRegistry.mem_of_find hfind
      have huser : e.userId = user.id := by
        by_contra hne
        exact howner ⟨e, rfl, hne⟩
      obtain ⟨f, events, heffect, hf, hcases⟩ := upsertEntry_cases r e user state now
      obtain ⟨hkey, hattached, hbindings⟩ := hf e
      rw [heffect]
      have hfree : ∀ g ∈ r.entries, g.HeldAt e.driveId e.sessionId → g = e := by
        intro g hg hgheld
        apply hr.eq_of_heldAt he hg ⟨hheld.1, rfl, rfl⟩ hgheld
      have hlimited : e.attached = true ∧ e.session.isSome ∨
          (r.sessionsOf e.driveId e.userId).length < maxPresenceSessions := by
        cases hsession : e.session with
        | some s => exact .inl ⟨hheld.1, rfl⟩
        | none =>
            right
            rw [hheld.2.1, huser]
            by_contra hge
            apply hmany
            rw [Option.bind_some, hsession]
            exact ⟨rfl, Nat.not_lt.mp hge⟩
      rcases hcases with ⟨rfl, hsome, hsame⟩ | ⟨s, rfl, hs, hid, howns⟩
      · obtain ⟨s, hs⟩ := Option.isSome_iff_exists.mp hsome
        apply PresenceStep.change
        apply hr.upserted he (hr.update_entries he hkey.1) rfl hkey hfree
          (hattached.trans hheld.1) hbindings (hsame.trans hs) (hr.labelled e he s hs) hlimited
          (.nothing hsame)
      · apply PresenceStep.change
        apply hr.upserted he (hr.update_entries he hkey.1) rfl hkey hfree
          (hattached.trans hheld.1) hbindings hs ⟨hid, howns.trans huser.symm⟩ hlimited
          (.updated s hs now)
  | none =>
      rw [hfind] at h hmany
      cases h
      obtain ⟨f, events, heffect, hf, hcases⟩ := upsertEntry_cases
        (r.create driveId sessionId user.id now)
        ⟨r.entries.length, driveId, sessionId, user.id, none, none, now, 0, true⟩ user state now
      obtain ⟨hkey, hattached, hbindings⟩ :=
        hf ⟨r.entries.length, driveId, sessionId, user.id, none, none, now, 0, true⟩
      rw [heffect]
      rcases hcases with ⟨-, hsome, -⟩ | ⟨s, rfl, hs, hid, howns⟩
      · cases hsome
      · apply PresenceStep.create driveId sessionId user.id now
        apply hr.prepare.upserted (mem_prepare.mpr (.inr rfl)) (hr.create_update_entries hkey.1)
          rfl hkey (free_prepare hfind) hattached hbindings hs ⟨hid, howns⟩
        · right
          rw [sessionsOf_prepare]
          by_contra hge
          exact hmany ⟨rfl, Nat.not_lt.mp hge⟩
        · exact .updated s hs now

end

/-! ### Remove, bind and release -/

section

variable {r r' : PresenceRegistry State} {e e' : PresenceEntry State} {now : Nat}

theorem PresenceSound.bindings_nonneg (hr : PresenceSound r) (he : e ∈ r.entries) :
  0 ≤ e.bindings
  := by
  rw [hr.counted e he]
  apply Int.natCast_nonneg

/-- Taking the session from an entry, once its bindings are those of its releases. -/
theorem PresenceSound.removed (hr : PresenceSound r) (he : e ∈ r.entries)
    (e' : PresenceEntry State)
    (hentries : r'.entries = replaceRow PresenceEntry.ref e'.removed r.entries)
    (hkey : e.SameKey e') (hheld : e.attached = true)
    (hcounted : e'.bindings = (openReleases r'.releases e.ref : Int))
    (hothers : ∀ ref, ref ≠ e.ref → openReleases r'.releases ref = openReleases r.releases ref)
    (howned : ∀ h ∈ r'.releases, (∃ f ∈ r.entries, h.Of f) ∨ h.Of e)
    (userId : Text) :
  PresenceChange r r' e e'.removed
    (if e.session.isSome then [.left e.driveId e.sessionId userId now] else [])
  where
    mem := he
    entries := hentries
    sameKey := hkey
    free := by
      intro f hf hfa
      apply hr.eq_of_heldAt he hf ⟨hheld, rfl, rfl⟩ hfa
    occupied := by
      have hnonneg : 0 ≤ e'.bindings := by
        rw [hcounted]
        apply Int.natCast_nonneg
      simp only [PresenceEntry.Occupied, PresenceEntry.removed, decide_eq_true_iff,
        Option.isSome_none, Bool.false_eq_true, false_or]
      omega
    labelled := by
      rintro s ⟨⟩
    counted := hcounted
    others := hothers
    owned := howned
    limited := .inl (fun hsome => absurd hsome (by simp [PresenceEntry.removed]))
    published := by
      cases hs : e.session with
      | none => exact .nothing (by rw [hs]; rfl)
      | some s => exact .left userId rfl now

theorem remove_eq {driveId sessionId userId : Text} (he : e ∈ r.entries)
    (hheld : e.HeldAt driveId sessionId) (huser : e.userId = userId)
    (hfree : ∀ f ∈ r.entries, f.HeldAt driveId sessionId → f = e) :
  r.remove driveId sessionId userId now =
    .ok (r.update e.ref PresenceEntry.removed,
      if e.session.isSome then [.left driveId sessionId userId now] else [])
  := by
  unfold PresenceRegistry.remove
  rw [PresenceRegistry.find_eq_some he hheld hfree]
  dsimp only
  rw [if_neg (not_not.mpr huser)]

/-- `remove` does nothing, or changes the entry at the key. -/
theorem remove_change (hr : PresenceSound r) {driveId sessionId userId : Text}
    {effect : PresenceEffect State}
    (h : r.remove driveId sessionId userId now = .ok effect) :
  effect = (r, []) ∨ ∃ e e', e.HeldAt driveId sessionId ∧
    PresenceChange r effect.1 e e' effect.2
  := by
  cases hfind : r.find driveId sessionId with
  | none =>
      unfold PresenceRegistry.remove at h
      rw [hfind] at h
      cases h
      exact .inl rfl
  | some e =>
      obtain ⟨he, hheld⟩ := PresenceRegistry.mem_of_find hfind
      have huser : e.userId = userId := by
        by_contra hne
        unfold PresenceRegistry.remove at h
        rw [hfind] at h
        dsimp only at h
        rw [if_pos hne] at h
        cases h
      rw [remove_eq he hheld huser (fun f hf hfa => hr.eq_of_heldAt he hf hheld hfa)] at h
      cases h
      obtain ⟨hattached, rfl, rfl⟩ := hheld
      right
      refine ⟨e, e.removed, ⟨hattached, rfl, rfl⟩, ?_⟩
      apply hr.removed he e (hr.update_entries he rfl) ⟨rfl, rfl, rfl, rfl⟩ hattached
        (hr.counted e he) (fun _ _ => rfl) (fun h hh => .inl (hr.owned h hh))

theorem remove_step (hr : PresenceSound r) {driveId sessionId userId : Text}
    {effect : PresenceEffect State}
    (h : r.remove driveId sessionId userId now = .ok effect) :
  PresenceStep r effect.1 effect.2
  := by
  rcases remove_change hr h with rfl | ⟨e, e', -, hchange⟩
  · exact .idle
  · apply PresenceStep.change hchange

/-- Binding a stream to an entry. -/
theorem PresenceSound.bound (hr : PresenceSound r) (he : e ∈ r.entries)
    (e' : PresenceEntry State)
    (hentries : r'.entries = replaceRow PresenceEntry.ref e' r.entries) (hkey : e.SameKey e')
    (hreleases : r'.releases =
      r.releases ++ [⟨e.ref, e.driveId, e.sessionId, e.userId, false⟩])
    (hfree : ∀ f ∈ r.entries, f.HeldAt e.driveId e.sessionId → f = e)
    (hattached : e'.attached = true) (hbindings : e'.bindings = e.bindings + 1)
    (hsession : e'.session = e.session) :
  PresenceChange r r' e e' []
  where
    mem := he
    entries := hentries
    sameKey := hkey
    free := hfree
    occupied := by
      have hnonneg := hr.bindings_nonneg he
      unfold PresenceEntry.Occupied
      rw [hattached, hbindings]
      simp only [true_iff]
      right
      omega
    labelled := by
      intro s hs
      rw [hsession] at hs
      rw [hkey.2.2.1, hkey.2.2.2]
      apply hr.labelled e he s hs
    counted := by
      rw [hreleases, openReleases_append _ _ rfl, if_pos rfl, hbindings, hr.counted e he]
      rfl
    others := by
      intro ref hne
      rw [hreleases, openReleases_append _ _ rfl, if_neg hne, Nat.add_zero]
    owned := by
      intro h hh
      rw [hreleases] at hh
      rcases List.mem_append.mp hh with hh | hh
      · exact .inl (hr.owned h hh)
      · right
        rw [List.mem_singleton.mp hh]
        exact ⟨rfl, rfl, rfl, rfl⟩
    limited := by
      left
      intro hsome
      rw [hsession] at hsome
      exact ⟨(hr.occupied e he).mpr (.inl hsome), hsome⟩
    published := .nothing hsession

theorem bind_step (hr : PresenceSound r) {driveId sessionId userId : Text}
    {effect : PresenceEffect State}
    (h : r.bind driveId sessionId userId now = .ok effect) :
  PresenceStep r effect.1 effect.2
  := by
  unfold PresenceRegistry.bind at h
  dsimp only at h
  split_ifs at h with howner
  cases hfind : r.find driveId sessionId with
  | some e =>
      rw [hfind] at h howner
      cases h
      obtain ⟨he, hheld⟩ := PresenceRegistry.mem_of_find hfind
      have huser : e.userId = userId := by
        by_contra hne
        exact howner ⟨e, rfl, hne⟩
      obtain ⟨hattached, rfl, rfl⟩ := hheld
      subst huser
      apply PresenceStep.change
      apply hr.bound he (e.addBindings 1) _ ⟨rfl, rfl, rfl, rfl⟩ rfl
        (fun f hf hfa => hr.eq_of_heldAt he hf ⟨hattached, rfl, rfl⟩ hfa) hattached rfl rfl
      apply hr.update_entries he rfl
  | none =>
      rw [hfind] at h
      cases h
      apply PresenceStep.create driveId sessionId userId now
      apply hr.prepare.bound (mem_prepare.mpr (.inr rfl))
        ⟨r.entries.length, driveId, sessionId, userId, none, none, now, 0 + 1, true⟩
        (hr.create_update_entries rfl) ⟨rfl, rfl, rfl, rfl⟩ rfl (free_prepare hfind) rfl rfl rfl

/-- The registry in which a release has been called, before its `remove`. -/
def PresenceRegistry.unbound (r : PresenceRegistry State) (index : Nat) (h : PresenceRelease) :
    PresenceRegistry State :=
  { r.update h.ref (PresenceEntry.addBindings (-1)) with
    releases := r.releases.set index { h with released := true } }

/-- What the first call of a release makes of that registry. -/
def PresenceRegistry.afterUnbound (r : PresenceRegistry State) (h : PresenceRelease) (now : Nat) :
    PresenceEffect State :=
  if ∃ f ∈ r.entries, f.ref = h.ref ∧ f.bindings = 0 then
    match r.remove h.driveId h.sessionId h.userId now with
    | .ok effect => effect
    | .error _ => (r, [])
  else (r, [])

theorem release_step (hr : PresenceSound r) (index : Nat) :
  PresenceStep r (r.release index now).1 (r.release index now).2
  := by
  unfold PresenceRegistry.release
  cases hindex : r.releases[index]? with
  | none => exact .idle
  | some h =>
      dsimp only
      by_cases hreleased : h.released = true
      · rw [if_pos hreleased]
        exact .idle
      · rw [if_neg hreleased]
        have hopen := eq_false_of_ne_true hreleased
        obtain ⟨e, he, href, hdrive, hsession, huser⟩ := hr.owned h (List.mem_of_getElem? hindex)
        have hcounts := openReleases_set hindex hopen
        have hcounted := hr.counted e he
        have hcount := hcounts e.ref
        rw [if_pos href] at hcount
        have hattached : e.attached = true := by
          apply (hr.occupied e he).mpr
          right
          omega
        have hafter : e.bindings + -1 = (openReleases
            (r.releases.set index { h with released := true }) e.ref : Int) := by
          omega
        have hothers : ∀ ref, ref ≠ e.ref →
            openReleases (r.releases.set index { h with released := true }) ref =
              openReleases r.releases ref := by
          intro ref hne
          have hsame := hcounts ref
          rwa [if_neg (fun heq => hne (heq.trans href.symm)), Nat.add_zero] at hsame
        have howned : ∀ g ∈ r.releases.set index { h with released := true },
            (∃ f ∈ r.entries, g.Of f) ∨ g.Of e := by
          intro g hg
          rcases List.mem_or_eq_of_mem_set hg with hg | rfl
          · exact .inl (hr.owned g hg)
          · exact .inr ⟨href, hdrive, hsession, huser⟩
        have hentries : (r.unbound index h).entries =
            replaceRow PresenceEntry.ref (e.addBindings (-1)) r.entries := by
          unfold PresenceRegistry.unbound
          rw [← href]
          apply hr.update_entries he rfl
        have hmem : ∀ f, f ∈ (r.unbound index h).entries ↔
            f = e.addBindings (-1) ∨ f ∈ r.entries ∧ f.ref ≠ e.ref := by
          intro f
          rw [hentries]
          apply mem_replaceRow he
          rfl
        change PresenceStep r ((r.unbound index h).afterUnbound h now).1
          ((r.unbound index h).afterUnbound h now).2
        unfold PresenceRegistry.afterUnbound
        by_cases hzero : e.bindings + -1 = 0
        · rw [if_pos ⟨_, (hmem _).mpr (.inl rfl), href, hzero⟩]
          have hfree : ∀ f ∈ (r.unbound index h).entries, f.HeldAt h.driveId h.sessionId →
              f = e.addBindings (-1) := by
            intro f hf hfa
            rcases (hmem f).mp hf with rfl | ⟨hf, hne⟩
            · rfl
            · rw [hr.eq_of_heldAt he hf ⟨hattached, hdrive, hsession⟩ hfa] at hne
              exact absurd rfl hne
          rw [remove_eq ((hmem _).mpr (.inl rfl)) ⟨hattached, hdrive, hsession⟩ huser hfree]
          dsimp only
          rw [← hdrive, ← hsession]
          apply PresenceStep.change
          have hkeyed : Keyed PresenceEntry.ref (r.unbound index h).entries := by
            rw [hentries]
            apply hr.refs.replaceRow
          have hremoved : ((r.unbound index h).update e.ref PresenceEntry.removed).entries =
              replaceRow PresenceEntry.ref
                (e.addBindings (-1)).removed r.entries := by
            rw [← replaceRow_replaceRow (show (e.addBindings (-1)).removed.ref =
              (e.addBindings (-1)).ref from rfl) r.entries, ← hentries]
            exact hkeyed.map_eq_replaceRow ((hmem _).mpr (.inl rfl)) rfl
          apply hr.removed he (e.addBindings (-1)) hremoved ⟨rfl, rfl, rfl, rfl⟩ hattached hafter hothers howned
        · rw [if_neg]
          · apply PresenceStep.change
            exact {
              mem := he
              entries := hentries
              sameKey := ⟨rfl, rfl, rfl, rfl⟩
              free := fun f hf hfa => hr.eq_of_heldAt he hf ⟨hattached, rfl, rfl⟩ hfa
              occupied := by
                show e.attached = true ↔ e.session.isSome ∨ 0 < e.bindings + -1
                rw [hattached]
                simp only [true_iff]
                right
                omega
              labelled := hr.labelled e he
              counted := hafter
              others := hothers
              owned := howned
              limited := .inl (fun hsome => ⟨hattached, hsome⟩)
              published := .nothing rfl }
          · rintro ⟨f, hf, hfref, hfzero⟩
            rcases (hmem f).mp hf with rfl | ⟨hf, hne⟩
            · exact hzero hfzero
            · exact hne (hfref.trans href.symm)

end

/-! ### Sweep -/

/-- Entries are only taken out of the maps. -/
def OnlyDetaches (r r' : PresenceRegistry State) : Prop :=
  ∀ e' ∈ r'.entries, e'.attached = true → ∃ e ∈ r.entries, e.attached = true ∧ e.SameKey e'

theorem PresenceEntry.SameKey.trans {e f g : PresenceEntry State} (hef : e.SameKey f)
    (hfg : f.SameKey g) :
  e.SameKey g
  := ⟨hfg.1.trans hef.1, hfg.2.1.trans hef.2.1, hfg.2.2.1.trans hef.2.2.1,
    hfg.2.2.2.trans hef.2.2.2⟩

theorem PresenceChange.onlyDetaches {r r' : PresenceRegistry State} {e e' : PresenceEntry State}
    {events : List (PresenceEvent State)} (h : PresenceChange r r' e e' events)
    (hattached : e.attached = true) :
  OnlyDetaches r r'
  := by
  intro f hf hfa
  rcases h.mem_entries.mp hf with rfl | ⟨hf, -⟩
  · exact ⟨e, h.mem, hattached, h.sameKey⟩
  · exact ⟨f, hf, hfa, rfl, rfl, rfl, rfl⟩

theorem OnlyDetaches.ownersKept {r r' : PresenceRegistry State} (hr : PresenceSound r)
    (h : OnlyDetaches r r') :
  OwnersKept r r'
  := by
  intro driveId sessionId e he e' he' hheld hheld'
  obtain ⟨f, hf, hfa, -, hdrive, hsession, huser⟩ := h e' he' hheld'.1
  rw [huser, hr.eq_of_heldAt he hf hheld
    ⟨hfa, hdrive.symm.trans hheld'.2.1, hsession.symm.trans hheld'.2.2⟩]

theorem ReplaysTo.trans {r₁ r₂ r₃ : PresenceRegistry State}
    {events₁ events₂ : List (PresenceEvent State)} (h₁ : ReplaysTo r₁ r₂ events₁)
    (h₂ : ReplaysTo r₂ r₃ events₂) :
  ReplaysTo r₁ r₃ (events₁ ++ events₂)
  := by
  intro driveId sessions hsessions s
  unfold replayEvents
  rw [List.filter_append, List.foldl_append]
  apply h₂ driveId
  apply h₁ driveId sessions hsessions

/-- What removing entries one after the other does. -/
structure PresenceSwept (es : List (PresenceEntry State)) (r r' : PresenceRegistry State)
    (events : List (PresenceEvent State)) : Prop where
  sound : PresenceSound r'
  replays : ReplaysTo r r' events
  detaches : OnlyDetaches r r'
  kept : ∀ f ∈ r.entries, (∀ e ∈ es, ¬ f.HeldAt e.driveId e.sessionId) → f ∈ r'.entries

theorem PresenceSwept.nil {r : PresenceRegistry State} (hr : PresenceSound r)
    (es : List (PresenceEntry State)) :
  PresenceSwept es r r []
  where
    sound := hr
    replays := fun _ _ hsessions => hsessions
    detaches := fun e he hattached => ⟨e, he, hattached, rfl, rfl, rfl, rfl⟩
    kept := fun _ hf _ => hf

theorem removeEntry_swept {r : PresenceRegistry State} (hr : PresenceSound r)
    (e : PresenceEntry State) (now : Nat) :
  PresenceSwept [e] r (r.removeEntry e now).1 (r.removeEntry e now).2
  := by
  unfold PresenceRegistry.removeEntry
  cases hremove : r.remove e.driveId e.sessionId e.userId now with
  | error _ => apply PresenceSwept.nil hr
  | ok effect =>
      rcases remove_change hr hremove with rfl | ⟨f, f', hheld, hchange⟩
      · apply PresenceSwept.nil hr
      · constructor
        · apply hchange.sound hr
        · apply hchange.replays hr
        · apply hchange.onlyDetaches hheld.1
        · intro g hg hfree
          apply hchange.mem_entries.mpr
          right
          refine ⟨hg, ?_⟩
          intro href
          rw [hr.refs.eq_of_mem hg hchange.mem href] at hfree
          exact hfree e (List.mem_singleton_self e) hheld

theorem removeAll_swept {r : PresenceRegistry State} (hr : PresenceSound r) (now : Nat)
    (es : List (PresenceEntry State)) :
  PresenceSwept es r (PresenceRegistry.removeAll now es r).1
    (PresenceRegistry.removeAll now es r).2
  := by
  induction es generalizing r with
  | nil => apply PresenceSwept.nil hr
  | cons e es ih =>
      have hfirst := removeEntry_swept hr e now
      have hrest := ih hfirst.sound
      unfold PresenceRegistry.removeAll
      constructor
      · exact hrest.sound
      · apply hfirst.replays.trans hrest.replays
      · intro f hf hfa
        obtain ⟨g, hg, hga, hgf⟩ := hrest.detaches f hf hfa
        obtain ⟨k, hk, hka, hkg⟩ := hfirst.detaches g hg hga
        exact ⟨k, hk, hka, hkg.trans hgf⟩
      · intro f hf hfree
        apply hrest.kept f
        · apply hfirst.kept f hf
          intro g hg
          rw [List.mem_singleton.mp hg]
          apply hfree e List.mem_cons_self
        · intro g hg
          apply hfree g (List.mem_cons_of_mem e hg)

/-- An entry to which a stream is bound is not swept. -/
theorem mem_sweep {r : PresenceRegistry State} (hr : PresenceSound r) (now : Nat)
    {f : PresenceEntry State} (hf : f ∈ r.entries) (hbound : 0 < f.bindings) :
  f ∈ (r.sweep now).1.entries
  := by
  apply (removeAll_swept hr now _).kept f hf
  intro e he hheld
  obtain ⟨he, hexpired⟩ := List.mem_filter.mp he
  rw [decide_eq_true_iff] at hexpired
  have hattached : f.attached = true := (hr.occupied f hf).mpr (.inr hbound)
  have hef := hr.unique e he f hf hexpired.1 hattached hheld.2.1.symm hheld.2.2.symm
  rw [hef] at hexpired
  have hzero := hexpired.2.2.1
  omega

/-! ### Runs -/

theorem presenceSound_empty :
  PresenceSound (PresenceRegistry.empty : PresenceRegistry State)
  where
    refs := keyed_nil
    bounded := by rintro e ⟨⟩
    unique := by rintro e ⟨⟩
    occupied := by rintro e ⟨⟩
    labelled := by rintro e ⟨⟩
    counted := by rintro e ⟨⟩
    owned := by rintro h ⟨⟩
    limited := fun _ _ => Nat.zero_le _

section

variable [DecidableEq State] {r : PresenceRegistry State}

/-- Every call keeps the invariant, publishes what it changes, and keeps the owners. -/
theorem call_law (hr : PresenceSound r) (now : Nat) (call : PresenceCall State) :
  PresenceSound (r.call now call).1 ∧ ReplaysTo r (r.call now call).1 (r.call now call).2 ∧
    OwnersKept r (r.call now call).1
  := by
  have hstep : ∀ {effect : PresenceEffect State}, PresenceStep r effect.1 effect.2 →
      PresenceSound effect.1 ∧ ReplaysTo r effect.1 effect.2 ∧ OwnersKept r effect.1 := by
    intro effect h
    exact ⟨h.sound hr, h.replays hr, h.ownersKept hr⟩
  unfold PresenceRegistry.call
  cases hcall : r.call? now call with
  | error e => exact hstep .idle
  | ok effect =>
      cases call with
      | upsert driveId sessionId user state => exact hstep (upsert_step hr hcall)
      | remove driveId sessionId userId => exact hstep (remove_step hr hcall)
      | bind driveId sessionId userId => exact hstep (bind_step hr hcall)
      | release index =>
          cases hcall
          exact hstep (release_step hr index)
      | sweep =>
          cases hcall
          have hswept := removeAll_swept hr now (r.entries.filter (fun e => e.Expired now))
          exact ⟨hswept.sound, hswept.replays, hswept.detaches.ownersKept hr⟩

theorem run_law (hr : PresenceSound r) (calls : List (Nat × PresenceCall State)) :
  PresenceSound (PresenceRegistry.run calls r).1 ∧
    ReplaysTo r (PresenceRegistry.run calls r).1 (PresenceRegistry.run calls r).2
  := by
  induction calls generalizing r with
  | nil => exact ⟨hr, fun _ _ hsessions => hsessions⟩
  | cons call calls ih =>
      obtain ⟨now, call⟩ := call
      obtain ⟨hsound, hreplays, -⟩ := call_law hr now call
      obtain ⟨hsounds, hreplayss⟩ := ih hsound
      exact ⟨hsounds, hreplays.trans hreplayss⟩

/-- What holds of a registry, whatever was called before. -/
structure PresenceLaw (r : PresenceRegistry State) : Prop where
  /-- The events of later calls turn a snapshot into the later one. -/
  replays : ∀ calls, ReplaysTo r (PresenceRegistry.run calls r).1 (PresenceRegistry.run calls r).2
  /-- No user has more than 32 sessions in a drive. -/
  limited : ∀ driveId userId, (r.sessionsOf driveId userId).length ≤ 32
  /-- A session id that is in use before and after a call has the same owner. -/
  owners : ∀ now call, OwnersKept r (r.call now call).1
  /-- An entry to which a stream is bound is not swept. -/
  bound : ∀ now, ∀ e ∈ r.entries, (∃ h ∈ r.releases, h.Of e ∧ h.released = false) →
    e ∈ (r.call now .sweep).1.entries
  /-- An entry exists exactly while it has a session or a stream is bound to it. -/
  occupied : ∀ e ∈ r.entries, e.attached = true ↔ e.session.isSome ∨ 0 < e.bindings

/-- The law of the registry holds after all calls. -/
theorem presence_law (calls : List (Nat × PresenceCall State)) :
  PresenceLaw (PresenceRegistry.run calls PresenceRegistry.empty).1
  := by
  have hr := (run_law presenceSound_empty calls).1
  generalize (PresenceRegistry.run calls PresenceRegistry.empty).1 = r at hr
  constructor
  · intro calls
    apply (run_law hr calls).2
  · apply hr.limited
  · intro now call
    apply (call_law hr now call).2.2
  · rintro now e he ⟨h, hh, hof, hopen⟩
    apply mem_sweep hr now he
    have hpos : 0 < openReleases r.releases e.ref := by
      unfold openReleases
      apply List.length_pos_of_mem (a := h)
      apply List.mem_filter.mpr
      exact ⟨hh, decide_eq_true ⟨hof.1.symm, hopen⟩⟩
    rw [hr.counted e he]
    exact_mod_cast hpos
  · apply hr.occupied

end

end

end AgentFs

import AgentFs.Share.Routes

/-!
# What a segment of a share request does

`ShareAction.Does` says what each action does to the tables and under which guard it is
taken; every segment of every request does what its event says.  A page is released by a
request that has counted a view of the same token, and only once.
-/

namespace AgentFs

open Async

/-! ### The functions of `share.ts` -/

/-- A share that is neither revoked nor expired. -/
def ShareRow.Live (share : ShareRow) (now : Nat) : Prop :=
  share.revokedAt = none ∧ now < share.expiresAt * 1000

/-- `tables'` is `tables` with the view of the share with the given token hash counted and,
for a view-limited share, the grant of the view stored. -/
structure Counts (sha256 : Bytes → Text) (tables : ShareTables) (now : Nat) (hash : Text)
    (view : OpenedShareView) (tables' : ShareTables) : Prop where
  share : ∃ share ∈ tables.shares, share.CanCount hash now ∧ view.share = share.countView now
  shares : tables'.shares = tables.shares.map (fun share =>
    if share.CanCount hash now then share.countView now else share)
  grants : ∀ row ∈ tables'.grants, row ∈ tables.grants ∨
    ∃ token, view.grant = some (token, row) ∧ row.shareId = view.share.id ∧
      row.grantHash = hashShareToken sha256 token

section

variable {sha256 : Bytes → Text} {tables tables' : ShareTables} {share : ShareRow} {now : Nat}

/-- What is neither revoked nor expired for `getShareState` is live. -/
theorem live_of_getShareState
    (h : ¬ (getShareState share now = .revoked ∨ getShareState share now = .expired)) :
  share.Live now
  := by
  unfold getShareState at h
  split at h
  · exact absurd (.inl rfl) h
  · rename_i hrevoked
    split at h
    · exact absurd (.inr rfl) h
    · rename_i hexpired
      exact ⟨not_not.mp hrevoked, Nat.not_le.mp hexpired⟩

theorem findShareByToken_spec {token : Text}
    (h : findShareByToken sha256 tables token = some share) :
  share ∈ tables.shares ∧ share.tokenHash = hashShareToken sha256 token
  := by
  unfold findShareByToken at h
  split at h
  · exact ⟨List.mem_of_find?_eq_some h, by simpa using List.find?_some h⟩
  · cases h

/-- A refused view changes nothing. -/
theorem consumeShareView_none {token : Text}
    (h : consumeShareView sha256 tables token now = (none, tables')) :
  tables' = tables
  := by
  unfold consumeShareView at h
  split at h
  · rw [Prod.mk.injEq] at h
    obtain ⟨hnone, rfl⟩ := h
    have hempty : ∀ share ∈ tables.shares, ¬ share.CanCount (hashShareToken sha256 token) now := by
      simpa using hnone
    have hshares : tables.shares.map (fun share =>
        if share.CanCount (hashShareToken sha256 token) now then share.countView now
        else share) = tables.shares := by
      apply (List.map_congr_left _).trans (List.map_id _)
      intro share hshare
      rw [if_neg (hempty share hshare)]
      rfl
    rw [hshares]
  · cases h
    rfl

theorem consumeShareView_some {token : Text} {share : ShareRow}
    (h : consumeShareView sha256 tables token now = (some share, tables')) :
  (∃ old ∈ tables.shares, old.CanCount (hashShareToken sha256 token) now ∧
      share = old.countView now) ∧
    tables' = { tables with shares := tables.shares.map (fun share =>
      if share.CanCount (hashShareToken sha256 token) now then share.countView now
      else share) }
  := by
  unfold consumeShareView at h
  split at h
  · rw [Prod.mk.injEq] at h
    obtain ⟨hsome, rfl⟩ := h
    have hmem := List.mem_of_head? hsome
    obtain ⟨old, hold, rfl⟩ := List.mem_map.mp hmem
    obtain ⟨hold, hcan⟩ := List.mem_filter.mp hold
    exact ⟨⟨old, hold, of_decide_eq_true hcan, rfl⟩, rfl⟩
  · cases h

theorem openShareView_none {token grantToken : Text}
    (h : openShareView sha256 tables token grantToken now = .ok (none, tables')) :
  tables' = tables
  := by
  unfold openShareView at h
  split at h
  · rename_i hconsume
    cases h
    exact consumeShareView_none hconsume
  · dsimp only at h
    split at h
    · cases h
    · split at h <;> cases h

theorem openShareView_counts {token grantToken : Text} {view : OpenedShareView}
    (h : openShareView sha256 tables token grantToken now = .ok (some view, tables')) :
  Counts sha256 tables now (hashShareToken sha256 token) view tables'
  := by
  unfold openShareView at h
  split at h
  · cases h
  · rename_i share counted hconsume
    obtain ⟨hshare, rfl⟩ := consumeShareView_some hconsume
    dsimp only at h
    split at h
    · cases h
      refine ⟨hshare, rfl, ?_⟩
      intro row hrow
      exact .inl (List.mem_filter.mp hrow).1
    · split at h
      · cases h
      · cases h
        refine ⟨hshare, rfl, ?_⟩
        intro row hrow
        obtain hrow | hrow := List.mem_append.mp hrow
        · exact .inl (List.mem_filter.mp hrow).1
        · rw [List.mem_singleton] at hrow
          subst hrow
          exact .inr ⟨grantToken, rfl, rfl, rfl⟩

/-- Bytes are authorized for a live share, and for a view-limited one against an unexpired
grant of that share. -/
theorem authorizeShareBytes_spec {token : Text} {grant : Option Text}
    (h : authorizeShareBytes sha256 tables token grant now = .ok share) :
  share ∈ tables.shares ∧ share.Live now ∧
    (share.maxViews ≠ none → ∃ g ∈ grant, HasGrant sha256 tables share g now)
  := by
  unfold authorizeShareBytes at h
  split at h
  · cases h
  · rename_i found hfound
    dsimp only at h
    split at h
    · cases h
    · rename_i hstate
      have hmem := (findShareByToken_spec hfound).1
      have hlive := live_of_getShareState hstate
      split at h
      · rename_i hunlimited
        cases h
        exact ⟨hmem, hlive, fun hlimited => absurd hunlimited hlimited⟩
      · split at h
        · cases h
        · rename_i g
          split at h
          · rename_i hgrant
            cases h
            exact ⟨hmem, hlive, fun _ => ⟨g, rfl, hgrant.2⟩⟩
          · cases h

/-- `tables'` is `tables` with the shares of the given ids, which are there, revoked. -/
structure Revokes (tables : ShareTables) (userId : Text) (now : Nat) (ids : List Text)
    (tables' : ShareTables) : Prop where
  known : ∀ id ∈ ids, ∃ share ∈ tables.shares, share.id = id
  grants : tables'.grants = tables.grants
  shares : tables'.shares = tables.shares.map (fun share =>
    if share.id ∈ ids ∧ share.revokedAt = none then share.revoke userId now else share)

/-- Revoking one share and then others is revoking them all. -/
theorem Revokes.cons {userId id : Text} {ids : List Text}
    (h : Revokes (revokeById userId id now tables).2 userId now ids tables') :
  Revokes tables userId now
    (if (revokeById userId id now tables).1 then id :: ids else ids) tables'
  := by
  have hfirst : (revokeById userId id now tables).2.shares = tables.shares.map (fun share =>
      if share.id = id ∧ share.revokedAt = none then share.revoke userId now else share) := rfl
  have hids : (revokeById userId id now tables).2.shares.map (·.id) =
      tables.shares.map (·.id) := by
    rw [hfirst, List.map_map]
    apply List.map_congr_left
    intro share _
    simp only [Function.comp]
    split <;> rfl
  have hrest : ∀ id' ∈ ids, ∃ share ∈ tables.shares, share.id = id' := by
    intro id' hid'
    obtain ⟨share, hshare, rfl⟩ := h.known id' hid'
    have hmem := List.mem_map_of_mem (f := (·.id)) hshare
    rw [hids] at hmem
    exact List.mem_map.mp hmem
  have hupdated : (revokeById userId id now tables).1 = true ↔
      ∃ share ∈ tables.shares, share.id = id ∧ share.revokedAt = none := by
    simp [revokeById]
  constructor
  · intro id' hid'
    split at hid'
    · rename_i hfound
      obtain rfl | hid' := List.mem_cons.mp hid'
      · obtain ⟨share, hshare, hid, -⟩ := hupdated.mp hfound
        exact ⟨share, hshare, hid⟩
      · exact hrest id' hid'
    · exact hrest id' hid'
  · exact h.grants
  · rw [h.shares, hfirst, List.map_map]
    apply List.map_congr_left
    intro share hshare
    simp only [Function.comp]
    by_cases hself : share.id = id ∧ share.revokedAt = none
    · have hfound := hupdated.mpr ⟨share, hshare, hself⟩
      rw [if_pos hself, if_neg (by simp [ShareRow.revoke]), if_pos hfound, if_pos]
      rw [hself.1]
      exact ⟨List.mem_cons_self, hself.2⟩
    · rw [if_neg hself]
      apply if_congr _ rfl rfl
      split
      · rw [List.mem_cons]
        constructor
        · rintro ⟨hmem, hnone⟩
          exact ⟨.inr hmem, hnone⟩
        · rintro ⟨heq | hmem, hnone⟩
          · exact absurd ⟨heq, hnone⟩ hself
          · exact ⟨hmem, hnone⟩
      · rfl

/-- Revoking marks the shares it returns, and no others. -/
theorem revokeAll_spec (userId : Text) (now : Nat) (tables : ShareTables)
    (rows : List ShareRow) :
  Revokes tables userId now (revokeAll userId now tables rows).1
    (revokeAll userId now tables rows).2
  := by
  induction rows generalizing tables with
  | nil => exact ⟨by simp [revokeAll], rfl, by simp [revokeAll]⟩
  | cons row rows ih =>
      unfold revokeAll
      split
      · exact ih tables
      · exact (ih _).cons

/-- A refused revoke changes nothing. -/
theorem shareRevoke_error {ctx : OpContext} {isAdmin : Bool} {params : ShareRevokeParams}
    {e : OpError} (h : shareRevoke sha256 ctx isAdmin params now tables = (.error e, tables')) :
  tables' = tables
  := by
  unfold shareRevoke at h
  split at h
  · cases h
    rfl
  · cases h
    rfl
  · dsimp only at h
    split at h
    · cases h
      rfl
    · cases h

theorem shareRevoke_ok {ctx : OpContext} {isAdmin : Bool} {params : ShareRevokeParams}
    {ids : List Text}
    (h : shareRevoke sha256 ctx isAdmin params now tables = (.ok ids, tables')) :
  Revokes tables ctx.userId now ids tables'
  := by
  unfold shareRevoke at h
  split at h
  · cases h
  · cases h
  · dsimp only at h
    split at h
    · cases h
    · rw [Prod.mk.injEq, Except.ok.injEq] at h
      obtain ⟨rfl, rfl⟩ := h
      exact revokeAll_spec _ _ _ _

/-! ### The law -/

variable (sha256)

/-- What an action does to the tables, and under which guard. -/
def ShareAction.Does (now : Nat) (tables tables' : ShareTables) : ShareAction → Prop
  | .quiet => tables' = tables
  | .created row => insertShare tables row = .ok tables' ∧ row.views = 0 ∧ row.revokedAt = none
  | .opened view => ∃ hash, Counts sha256 tables now hash view tables'
  | .revoked ids => ∃ userId, Revokes tables userId now ids tables'
  | .notice share => tables' = tables ∧ share ∈ tables.shares ∧ share.Live now
  | .page share => tables' = tables ∧ share ∈ tables.shares ∧ share.Live now
  | .bytes share grant => tables' = tables ∧ share ∈ tables.shares ∧ share.Live now ∧
      (share.maxViews ≠ none → ∃ g ∈ grant, HasGrant sha256 tables share g now)

/-- The action releases no page. -/
def ShareAction.NotPage : ShareAction → Prop
  | .page _ => False
  | _ => True

/-- A segment that does what its event says, and whose action is allowed. -/
structure ShareLaw (allowed : ShareAction → Prop) (w : ShareWorld)
    (r : ShareEvent × ShareWorld) : Prop where
  time : r.1.time = r.2.clock
  does : r.1.action.Does sha256 r.1.time w.tables r.2.tables
  allowed : allowed r.1.action

variable {sha256} {allowed : ShareAction → Prop} {α : Type}

theorem shareSegment_law
    {f : ShareInput → ShareTables → Except ShareResponse α × ShareAction × ShareTables}
    (h : ∀ x tables, (f x tables).2.1.Does sha256 x.now tables (f x tables).2.2 ∧
      allowed (f x tables).2.1) :
  (shareSegment f).run.Always (ShareLaw sha256 allowed)
  := Fallible.always_atomic (fun w x => ⟨rfl, (h x w.tables).1, (h x w.tables).2⟩)

variable (hquiet : allowed .quiet)

include hquiet

theorem look_law (f : ShareInput → ShareTables → Except ShareResponse α) :
  (look f).run.Always (ShareLaw sha256 allowed)
  := shareSegment_law (fun _ _ => ⟨rfl, hquiet⟩)

theorem presignShareUrl_law (share : ShareRow) (capSeconds : Nat) (missing : ShareResponse) :
  (presignShareUrl share capSeconds missing).run.Always (ShareLaw sha256 allowed)
  := by
  apply Fallible.always_bind (look_law hquiet _)
  intro ttl
  cases ttl with
  | none => exact Fallible.segments_pure _
  | some ttl =>
      apply Fallible.always_bind (look_law hquiet _)
      exact fun _ => Fallible.segments_pure _

theorem buildBody_law (presignedUrls : Bool) (share : ShareRow) (type : ShareFileType)
    (size : Nat) (token : Text) (grant : Option Text) :
  (buildBody presignedUrls share type size token grant).run.Always (ShareLaw sha256 allowed)
  := by
  unfold buildBody
  dsimp only
  split
  · exact Fallible.segments_pure _
  split
  · split
    · exact Fallible.segments_pure _
    · exact Fallible.segments_pure _
  split
  · split
    · apply Fallible.always_bind (presignShareUrl_law hquiet _ _ _)
      exact fun _ => Fallible.segments_pure _
    · exact Fallible.segments_pure _
  split
  · split
    · exact Fallible.segments_pure _
    · apply Fallible.always_bind (look_law hquiet _)
      exact fun _ => Fallible.segments_pure _
  · exact Fallible.segments_pure _

omit hquiet

theorem findActiveShare_law (req : PageRequest) :
  (findActiveShare sha256 req).run.Always (ShareLaw sha256 ShareAction.NotPage)
  := by
  apply shareSegment_law
  intro x tables
  split
  · exact ⟨rfl, trivial⟩
  · rename_i share hshare
    have hmem := (findShareByToken_spec hshare).1
    split
    · exact ⟨rfl, trivial⟩
    · rename_i hstate
      have hlive : share.Live x.now := by
        apply live_of_getShareState
        rw [not_not.mp hstate]
        simp
      split
      · exact ⟨⟨rfl, hmem, hlive⟩, trivial⟩
      split
      · exact ⟨⟨rfl, hmem, hlive⟩, trivial⟩
      split
      · exact ⟨⟨rfl, hmem, hlive⟩, trivial⟩
      · exact ⟨rfl, trivial⟩

theorem openView_law (token : Text) :
  (openView sha256 token).run.Always (ShareLaw sha256 ShareAction.NotPage)
  := by
  apply shareSegment_law
  intro x tables
  split
  · exact ⟨rfl, trivial⟩
  · rename_i hopen
    exact ⟨openShareView_none hopen, trivial⟩
  · rename_i hopen
    exact ⟨⟨_, openShareView_counts hopen⟩, trivial⟩

theorem releasePage_law (token : Text) (answer : ShareResponse) :
  (releasePage sha256 token answer).run.Always (ShareLaw sha256 (fun _ => True))
  := by
  apply shareSegment_law
  intro x tables
  refine ⟨?_, trivial⟩
  split
  · rfl
  · rename_i live hlive
    split
    · rfl
    · rename_i hstate
      rw [not_or] at hstate
      exact ⟨rfl, (findShareByToken_spec hlive).1, not_not.mp hstate.1,
        Nat.not_le.mp hstate.2⟩

/-- What is allowed may be weakened. -/
theorem always_of_notPage {route : Route α}
    (hroute : route.run.Always (ShareLaw sha256 ShareAction.NotPage)) :
  route.run.Always (ShareLaw sha256 (fun _ => True))
  := hroute.mono (fun _ _ h => ⟨h.time, h.does, trivial⟩)

theorem sharePage_law (presignedUrls : Bool) (req : PageRequest) :
  (sharePage sha256 presignedUrls req).run.Always (ShareLaw sha256 (fun _ => True))
  := by
  apply Fallible.always_bind (always_of_notPage (findActiveShare_law req))
  intro share
  split
  · exact Fallible.segments_throw _
  · apply Fallible.always_bind (look_law trivial _)
    intro size
    apply Fallible.always_bind (always_of_notPage (openView_law _))
    intro opened
    apply Fallible.always_bind (buildBody_law trivial _ _ _ _ _ _)
    intro body
    split
    · exact Fallible.segments_throw _
    · exact releasePage_law _ _

theorem releaseBytes_law (token : Text) (grant : Option Text) (answer : ShareResponse) :
  (releaseBytes sha256 token grant answer).run.Always (ShareLaw sha256 ShareAction.NotPage)
  := by
  apply shareSegment_law
  intro x tables
  split
  · exact ⟨rfl, trivial⟩
  · rename_i share hshare
    exact ⟨⟨rfl, authorizeShareBytes_spec hshare⟩, trivial⟩

theorem releaseUrl_law (token : Text) (grant : Option Text) (url : Option PresignedUrl) :
  (releaseUrl sha256 token grant url).run.Always (ShareLaw sha256 ShareAction.NotPage)
  := by
  apply shareSegment_law
  intro x tables
  split
  · exact ⟨rfl, trivial⟩
  · exact ⟨rfl, trivial⟩
  · rename_i share url hshare
    exact ⟨⟨rfl, authorizeShareBytes_spec hshare⟩, trivial⟩

theorem streamObject_law (token : Text) (grant : Option Text) (contentType disposition : Text)
    (maxBytes : Option Nat) :
  (streamObject sha256 token grant contentType disposition maxBytes).run.Always
    (ShareLaw sha256 ShareAction.NotPage)
  := by
  apply Fallible.always_bind (look_law trivial _)
  intro bytes
  split
  · exact Fallible.segments_throw _
  · exact releaseBytes_law _ _ _

theorem shareRaw_law (presignedUrls : Bool) (token : Text) (grant : Option Text) :
  (shareRaw sha256 presignedUrls token grant).run.Always (ShareLaw sha256 ShareAction.NotPage)
  := by
  apply Fallible.always_bind (look_law trivial _)
  intro share
  dsimp only
  split
  · exact Fallible.segments_throw _
  split
  · exact Fallible.segments_throw _
  split
  · exact Fallible.segments_throw _
  split
  · apply Fallible.always_bind (look_law trivial _)
    intro size
    split
    · exact Fallible.segments_throw _
    · exact streamObject_law _ _ _ _ _
  split
  · apply Fallible.always_bind (presignShareUrl_law trivial _ _ _)
    exact fun _ => releaseUrl_law _ _ _
  · exact streamObject_law _ _ _ _ _

theorem shareDownload_law (presignedUrls : Bool) (token : Text) (grant : Option Text) :
  (shareDownload sha256 presignedUrls token grant).run.Always
    (ShareLaw sha256 ShareAction.NotPage)
  := by
  apply Fallible.always_bind (look_law trivial _)
  intro share
  split
  · exact Fallible.segments_throw _
  split
  · exact Fallible.segments_throw _
  split
  · apply Fallible.always_bind (look_law trivial _)
    intro _
    apply Fallible.always_bind (look_law trivial _)
    intro again
    apply Fallible.always_bind (presignShareUrl_law trivial _ _ _)
    exact fun _ => releaseUrl_law _ _ _
  · exact streamObject_law _ _ _ _ _

theorem shareCreate_law (ctx : OpContext) (params : ShareCreateParams) :
  (shareCreate sha256 ctx params).run.Always (ShareLaw sha256 ShareAction.NotPage)
  := by
  unfold shareCreate
  dsimp only
  split
  · apply Fallible.always_bind (look_law trivial _)
    intro kind
    split
    · exact Fallible.segments_throw _
    split
    · exact Fallible.segments_throw _
    · apply shareSegment_law
      intro x tables
      split
      · exact ⟨rfl, trivial⟩
      · rename_i hinsert
        exact ⟨⟨hinsert, rfl, rfl⟩, trivial⟩
  · exact Fallible.segments_throw _

theorem revokeShare_law (ctx : OpContext) (params : ShareRevokeParams) :
  (revokeShare sha256 ctx params).run.Always (ShareLaw sha256 ShareAction.NotPage)
  := by
  apply shareSegment_law
  intro x tables
  split
  · rename_i hrevoke
    exact ⟨shareRevoke_error hrevoke, trivial⟩
  · rename_i hrevoke
    exact ⟨⟨_, shareRevoke_ok hrevoke⟩, trivial⟩

/-! ### The order of the page route -/

/-- A page is released once, and only after the request has counted a view of the share with
the same token hash. -/
def PageRule : Rule ShareEvent := fun h ev =>
  ∀ share, ev.action = .page share →
    (∃ ev' ∈ h, ∃ view, ev'.action = .opened view ∧ view.share.tokenHash = share.tokenHash) ∧
      ∀ ev' ∈ h, ev'.action.NotPage

/-- No page has been released. -/
def Unreleased (h : List ShareEvent) : Prop :=
  ∀ ev ∈ h, ev.action.NotPage

theorem Unreleased.cons {h : List ShareEvent} {ev : ShareEvent} (hev : ev.action.NotPage)
    (hh : Unreleased h) :
  Unreleased (ev :: h)
  := by
  intro ev' hev'
  obtain rfl | hev' := List.mem_cons.mp hev'
  · exact hev
  · exact hh ev' hev'

theorem PageRule.of_notPage {h : List ShareEvent} {ev : ShareEvent}
    (hev : ev.action.NotPage) :
  PageRule h ev
  := by
  intro share hshare
  rw [hshare] at hev
  exact hev.elim

/-- A route that releases no page follows the rule, and adds no release. -/
theorem follows_of_notPage {route : Route α} {Q : List ShareEvent → α → Prop}
    {h : List ShareEvent} (hroute : route.run.Always (ShareLaw sha256 ShareAction.NotPage))
    (hh : Unreleased h) (hok : ∀ h' a, h ⊆ h' → Unreleased h' → Q h' a) :
  route.Follows PageRule Q (fun _ _ => True) h
  := by
  have hrule : ∀ h' (ev : ShareEvent), ev.action.NotPage → PageRule h' ev :=
    fun _ _ => PageRule.of_notPage
  have hfollows := hroute.follows (fun _ _ hlaw => hlaw.allowed) hrule h
  apply Prog.Follows.mono _ hfollows
  rintro h' (e | a) ⟨n, rfl, hn⟩
  · trivial
  · apply hok _ a (List.subset_append_right n h)
    intro ev hev
    obtain hev | hev := List.mem_append.mp hev
    · exact hn ev hev
    · exact hh ev hev

/-- A counted view is one of the share with the token. -/
theorem openView_follows {token : Text} {Q : List ShareEvent → OpenedShareView → Prop}
    {h : List ShareEvent} (hh : Unreleased h)
    (hok : ∀ ev view, ev.action = .opened view →
      view.share.tokenHash = hashShareToken sha256 token → Unreleased (ev :: h) →
      Q (ev :: h) view) :
  (openView sha256 token).Follows PageRule Q (fun _ _ => True) h
  := by
  apply Fallible.Follows.atomic
  intro w x
  dsimp only
  split
  · exact ⟨.of_notPage trivial, trivial⟩
  · exact ⟨.of_notPage trivial, trivial⟩
  · rename_i view tables hopen
    have hnot : (ShareEvent.mk x.now (.opened view)).action.NotPage := trivial
    refine ⟨.of_notPage hnot, ?_⟩
    apply hok _ _ rfl _ (hh.cons hnot)
    obtain ⟨share, -, hcan, hview⟩ := (openShareView_counts hopen).share
    rw [hview]
    exact hcan.1

theorem releasePage_follows {token : Text} {answer : ShareResponse} {h : List ShareEvent}
    {ev : ShareEvent} {view : OpenedShareView} (hev : ev ∈ h)
    (hopened : ev.action = .opened view)
    (hhash : view.share.tokenHash = hashShareToken sha256 token) (hh : Unreleased h) :
  (releasePage sha256 token answer).Follows PageRule (fun _ _ => True) (fun _ _ => True) h
  := by
  apply Fallible.Follows.atomic
  intro w x
  dsimp only
  split
  · exact ⟨.of_notPage trivial, trivial⟩
  · rename_i live hlive
    split
    · exact ⟨.of_notPage trivial, trivial⟩
    · refine ⟨?_, trivial⟩
      intro share hshare
      cases hshare
      exact ⟨⟨ev, hev, view, hopened, hhash.trans (findShareByToken_spec hlive).2.symm⟩, hh⟩

theorem sharePage_follows (presignedUrls : Bool) (req : PageRequest) :
  (sharePage sha256 presignedUrls req).Follows PageRule (fun _ _ => True) (fun _ _ => True) []
  := by
  have hnil : Unreleased [] := by
    intro ev hev
    cases hev
  apply Fallible.Follows.bind
  apply follows_of_notPage (findActiveShare_law req) hnil
  intro h₁ share _ hh₁
  split
  · exact .throw trivial
  · apply Fallible.Follows.bind
    apply follows_of_notPage (@look_law sha256 _ _ trivial _) hh₁
    intro h₂ size _ hh₂
    apply Fallible.Follows.bind
    apply openView_follows hh₂
    intro ev opened hopened hhash hh₃
    apply Fallible.Follows.bind
    apply follows_of_notPage (@buildBody_law sha256 _ trivial _ _ _ _ _ _) hh₃
    intro h₄ body hsub hh₄
    split
    · exact .throw trivial
    · exact releasePage_follows (hsub List.mem_cons_self) hopened hhash hh₄

/-! ### Requests -/

theorem ShareRequest.program_law (presignedUrls : Bool) (request : ShareRequest) :
  (request.program sha256 presignedUrls).run.Always (ShareLaw sha256 (fun _ => True))
  := by
  cases request with
  | create ctx params => exact always_of_notPage (shareCreate_law ctx params)
  | revoke ctx params => exact always_of_notPage (revokeShare_law ctx params)
  | page req => exact sharePage_law presignedUrls req
  | raw token grant => exact always_of_notPage (shareRaw_law presignedUrls token grant)
  | download token grant => exact always_of_notPage (shareDownload_law presignedUrls token grant)

theorem ShareRequest.program_follows (presignedUrls : Bool) (request : ShareRequest) :
  (request.program sha256 presignedUrls).Follows PageRule (fun _ _ => True) (fun _ _ => True) []
  := by
  have hnil : Unreleased [] := by
    intro ev hev
    cases hev
  cases request with
  | create ctx params =>
      exact follows_of_notPage (shareCreate_law ctx params) hnil (fun _ _ _ _ => trivial)
  | revoke ctx params =>
      exact follows_of_notPage (revokeShare_law ctx params) hnil (fun _ _ _ _ => trivial)
  | page req => exact sharePage_follows presignedUrls req
  | raw token grant =>
      exact follows_of_notPage (shareRaw_law presignedUrls token grant) hnil
        (fun _ _ _ _ => trivial)
  | download token grant =>
      exact follows_of_notPage (shareDownload_law presignedUrls token grant) hnil
        (fun _ _ _ _ => trivial)

/-- A step of a run: a segment that does what its event says and keeps the order. -/
structure ShareStep (sha256 : Bytes → Text) (cf : Conf ShareWorld ShareEvent) (i : Nat)
    (r : ShareEvent × ShareWorld) : Prop where
  law : ShareLaw sha256 (fun _ => True) cf.state r
  order : PageRule (cf.own i) r.1

/-- Every step of every run of the server is such a step. -/
theorem shareServer_steps (sha256 : Bytes → Text) (presignedUrls : Bool)
    (requests : List ShareRequest) (sched : List (Nat × ShareInput)) :
  (shareServer sha256 presignedUrls requests).Admits (ShareStep sha256) sched
  := by
  have hlaw : (shareServer sha256 presignedUrls requests).Admits
      (fun cf _ r => ShareLaw sha256 (fun _ => True) cf.state r) sched := by
    apply Pool.admits_of_always
    intro p hp
    obtain ⟨request, -, rfl⟩ := List.mem_map.mp hp
    exact request.program_law presignedUrls
  have hfollows : ∀ (i : Nat) (p : Prog _ _ _ _), (shareServer sha256 presignedUrls requests).procs[i]? = some p →
      p.Follows PageRule (fun _ _ => True) ((shareServer sha256 presignedUrls requests).conf.own i)
      := by
    intro i p hp
    obtain ⟨request, -, rfl⟩ := List.mem_map.mp (List.mem_of_getElem? hp)
    apply Prog.Follows.mono _ (request.program_follows presignedUrls)
    exact fun _ _ _ => trivial
  have horder := (Pool.run_follows (R := fun _ => PageRule) (Q := fun _ _ _ => True) hfollows
    sched).1
  apply Pool.Admits.mono _ (Pool.admits_and.mpr ⟨hlaw, horder⟩)
  rintro cf i r ⟨hlaw, horder⟩
  exact ⟨hlaw, horder⟩

end

end AgentFs

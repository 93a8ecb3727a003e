import Mathlib.Data.List.Nodup
import Mathlib.Data.List.Perm.Subperm
import AgentFs.Share.Law
import AgentFs.Ops.Files

/-!
# Share view accounting

In every run of share requests, in any order of their segments, the views of a share never
exceed its limit, the bytes of a view-limited share are released against an unexpired grant
of a counted view of the same share, and nothing is released once the share is revoked or
has expired.
-/

namespace AgentFs

open Async

/-! ### Events about a share -/

/-- The share that an answer is about. -/
def ShareAction.served? : ShareAction → Option ShareRow
  | .notice share => some share
  | .page share => some share
  | .bytes share _ => some share
  | _ => none

/-- The share that an action is about. -/
def ShareAction.share? : ShareAction → Option ShareRow
  | .opened view => some view.share
  | action => action.served?

/-- A view of the share was counted. -/
def ShareAction.Opens (id : Text) : ShareAction → Prop
  | .opened view => view.share.id = id
  | _ => False

instance (id : Text) (action : ShareAction) : Decidable (action.Opens id) :=
  match action with
  | .opened view => inferInstanceAs (Decidable (view.share.id = id))
  | .quiet | .created _ | .revoked _ | .notice _ | .page _ | .bytes _ _ => isFalse not_false

/-- The page of the share was released. -/
def ShareAction.ReleasesPage (id : Text) : ShareAction → Prop
  | .page share => share.id = id
  | _ => False

instance (id : Text) (action : ShareAction) : Decidable (action.ReleasesPage id) :=
  match action with
  | .page share => inferInstanceAs (Decidable (share.id = id))
  | .quiet | .created _ | .opened _ | .revoked _ | .notice _ | .bytes _ _ => isFalse not_false

/-- The share was revoked. -/
def ShareAction.Revokes (id : Text) : ShareAction → Prop
  | .revoked ids => id ∈ ids
  | _ => False

/-- How many views of the share a run has counted. -/
def viewsOf (id : Text) (trace : List (Nat × ShareEvent)) : Nat :=
  trace.countP (fun t => t.2.action.Opens id)

/-- How many pages of the share a run has released. -/
def pagesOf (id : Text) (trace : List (Nat × ShareEvent)) : Nat :=
  trace.countP (fun t => t.2.action.ReleasesPage id)

/-- The run has counted a view of the share and stored with it a grant whose token has the
hash of the presented one and that has not expired at `now`. -/
def AgainstGrant (sha256 : Bytes → Text) (trace : List (Nat × ShareEvent)) (share : ShareRow)
    (grant : Option Text) (now : Nat) : Prop :=
  ∃ g ∈ grant, ∃ t ∈ trace, ∃ view token row, t.2.action = .opened view ∧
    view.share.id = share.id ∧ view.grant = some (token, row) ∧
    hashShareToken sha256 token = hashShareToken sha256 g ∧ now < row.expiresAt * 1000

/-! ### The invariant -/

/-- The columns of a share that never change. -/
structure SameShare (share share' : ShareRow) : Prop where
  id : share.id = share'.id
  tokenHash : share.tokenHash = share'.tokenHash
  maxViews : share.maxViews = share'.maxViews
  expiresAt : share.expiresAt = share'.expiresAt

/-- The invariant of a run. -/
structure ShareInv (sha256 : Bytes → Text) (cf : Conf ShareWorld ShareEvent) : Prop where
  ids : (cf.state.tables.shares.map (·.id)).Nodup
  hashes : (cf.state.tables.shares.map (·.tokenHash)).Nodup
  counted : ∀ share ∈ cf.state.tables.shares, share.views = viewsOf share.id cf.trace
  limit : ∀ share ∈ cf.state.tables.shares, ∀ maxViews ∈ share.maxViews,
    share.views ≤ maxViews
  /-- Every stored grant was stored with a counted view. -/
  grants : ∀ row ∈ cf.state.tables.grants, ∃ t ∈ cf.trace, ∃ view token,
    t.2.action = .opened view ∧ view.grant = some (token, row) ∧
      row.shareId = view.share.id ∧ row.grantHash = hashShareToken sha256 token
  /-- Shares are never removed. -/
  known : ∀ t ∈ cf.trace, ∀ share, t.2.action.share? = some share →
    ∃ share' ∈ cf.state.tables.shares, SameShare share share'
  /-- A revoked share stays revoked. -/
  revoked : ∀ t ∈ cf.trace, ∀ id, t.2.action.Revokes id →
    ∃ share ∈ cf.state.tables.shares, share.id = id ∧ share.revokedAt ≠ none
  clock : ∀ t ∈ cf.trace, t.2.time ≤ cf.state.clock
  /-- A request that has released a page has counted a view of the share. -/
  pages : ∀ i ev share, ev ∈ cf.own i → ev.action = .page share →
    ∃ ev' ∈ cf.own i, ev'.action.Opens share.id
  /-- A request releases at most one page. -/
  once : ∀ id, ((cf.trace.filter (fun t => t.2.action.ReleasesPage id)).map Prod.fst).Nodup

section

variable {sha256 : Bytes → Text} {cf : Conf ShareWorld ShareEvent} {i : Nat}
  {r : ShareEvent × ShareWorld}

/-- A step leaves the tables, adds a share, counts a view or revokes. -/
theorem ShareStep.cases (h : ShareStep sha256 cf i r) :
  (r.2.tables = cf.state.tables ∧ (∀ id, ¬ r.1.action.Opens id) ∧
      ∀ id, ¬ r.1.action.Revokes id) ∨
    (∃ row, r.1.action = .created row ∧ insertShare cf.state.tables row = .ok r.2.tables ∧
      row.views = 0) ∨
    (∃ view hash, r.1.action = .opened view ∧
      Counts sha256 cf.state.tables r.1.time hash view r.2.tables) ∨
    ∃ ids userId, r.1.action = .revoked ids ∧
      AgentFs.Revokes cf.state.tables userId r.1.time ids r.2.tables
  := by
  have hdoes := h.law.does
  cases haction : r.1.action with
  | quiet =>
      rw [haction] at hdoes
      exact .inl ⟨hdoes, fun _ => not_false, fun _ => not_false⟩
  | created row =>
      rw [haction] at hdoes
      exact .inr (.inl ⟨row, rfl, hdoes.1, hdoes.2.1⟩)
  | opened view =>
      rw [haction] at hdoes
      obtain ⟨hash, hcounts⟩ := hdoes
      exact .inr (.inr (.inl ⟨view, hash, rfl, hcounts⟩))
  | revoked ids =>
      rw [haction] at hdoes
      obtain ⟨userId, hrevokes⟩ := hdoes
      exact .inr (.inr (.inr ⟨ids, userId, rfl, hrevokes⟩))
  | notice share =>
      rw [haction] at hdoes
      exact .inl ⟨hdoes.1, fun _ => not_false, fun _ => not_false⟩
  | page share =>
      rw [haction] at hdoes
      exact .inl ⟨hdoes.1, fun _ => not_false, fun _ => not_false⟩
  | bytes share grant =>
      rw [haction] at hdoes
      exact .inl ⟨hdoes.1, fun _ => not_false, fun _ => not_false⟩

theorem insertShare_ok {tables tables' : ShareTables} {row : ShareRow}
    (h : insertShare tables row = .ok tables') :
  (∀ share ∈ tables.shares, share.id ≠ row.id ∧ share.tokenHash ≠ row.tokenHash) ∧
    tables'.shares = tables.shares ++ [row] ∧ tables'.grants = tables.grants
  := by
  unfold insertShare at h
  split at h
  · cases h
  · rename_i hfresh
    cases h
    refine ⟨?_, rfl, rfl⟩
    intro share hshare
    exact ⟨fun heq => hfresh ⟨share, hshare, .inl heq⟩,
      fun heq => hfresh ⟨share, hshare, .inr heq⟩⟩

theorem SameShare.refl (share : ShareRow) :
  SameShare share share
  := ⟨rfl, rfl, rfl, rfl⟩

theorem SameShare.trans {s s' s'' : ShareRow} (h : SameShare s s') (h' : SameShare s' s'') :
  SameShare s s''
  := ⟨h.id.trans h'.id, h.tokenHash.trans h'.tokenHash, h.maxViews.trans h'.maxViews,
    h.expiresAt.trans h'.expiresAt⟩

/-- What a step makes of a share that was there: the fixed columns stay, a revoked share
stays revoked, and the counter moves with the counted views. -/
structure Evolves (action : ShareAction) (share share' : ShareRow) : Prop where
  same : SameShare share share'
  revoked : share.revokedAt ≠ none ∨ action.Revokes share.id → share'.revokedAt ≠ none
  views : share'.views = share.views + if action.Opens share.id then 1 else 0
  room : action.Opens share.id → ∀ maxViews ∈ share.maxViews, share.views < maxViews

/-- A step that neither counts a view of a share nor has to revoke it may leave it. -/
theorem Evolves.keep {action : ShareAction} {share : ShareRow}
    (hopens : ¬ action.Opens share.id)
    (hrevokes : action.Revokes share.id → share.revokedAt ≠ none) :
  Evolves action share share
  := by
  refine ⟨.refl share, ?_, ?_, fun hopen => absurd hopen hopens⟩
  · rintro (hrevoked | hrevoked)
    · exact hrevoked
    · exact hrevokes hrevoked
  · rw [if_neg hopens, Nat.add_zero]

/-- Two rows with one id, or one token hash, are the same row. -/
theorem ShareInv.eq_of_id (hinv : ShareInv sha256 cf) {s s' : ShareRow}
    (hs : s ∈ cf.state.tables.shares) (hs' : s' ∈ cf.state.tables.shares) (hid : s.id = s'.id) :
  s = s'
  := List.inj_on_of_nodup_map hinv.ids hs hs' hid

theorem ShareInv.eq_of_hash (hinv : ShareInv sha256 cf) {s s' : ShareRow}
    (hs : s ∈ cf.state.tables.shares) (hs' : s' ∈ cf.state.tables.shares)
    (hhash : s.tokenHash = s'.tokenHash) :
  s = s'
  := List.inj_on_of_nodup_map hinv.hashes hs hs' hhash

/-- The shares after a step are those before it, each changed as `Evolves` says, and the
one that the step has added. -/
theorem ShareStep.shares (h : ShareStep sha256 cf i r) (hinv : ShareInv sha256 cf) :
  ∃ f : ShareRow → ShareRow,
    (∀ share ∈ cf.state.tables.shares, Evolves r.1.action share (f share)) ∧
    (r.2.tables.shares = cf.state.tables.shares.map f ∨
      ∃ row, r.1.action = .created row ∧ row.views = 0 ∧
        (∀ share ∈ cf.state.tables.shares,
          share.id ≠ row.id ∧ share.tokenHash ≠ row.tokenHash) ∧
        r.2.tables.shares = cf.state.tables.shares.map f ++ [row])
  := by
  obtain ⟨htables, hopens, hrevokes⟩ | ⟨row, haction, hinsert, hviews⟩ |
    ⟨view, hash, haction, hcounts⟩ | ⟨ids, userId, haction, hrevoke⟩ := h.cases
  · refine ⟨id, fun share _ => .keep (hopens _) (fun h => absurd h (hrevokes _)), .inl ?_⟩
    rw [htables, List.map_id]
  · obtain ⟨hfresh, hshares, -⟩ := insertShare_ok hinsert
    refine ⟨id, ?_, .inr ⟨row, haction, hviews, hfresh, by rw [hshares, List.map_id]⟩⟩
    intro share _
    rw [haction]
    exact .keep not_false False.elim
  · refine ⟨_, ?_, .inl hcounts.shares⟩
    intro share hshare
    obtain ⟨old, hold, hcan, hview⟩ := hcounts.share
    rw [haction]
    have hid : view.share.id = old.id := by
      rw [hview]
      rfl
    split
    · rename_i hcan'
      obtain rfl := hinv.eq_of_hash hshare hold (hcan'.1.trans hcan.1.symm)
      have hopens : (ShareAction.opened view).Opens share.id := hid
      refine ⟨⟨rfl, rfl, rfl, rfl⟩, ?_, ?_, fun _ => hcan'.2.2.2⟩
      · rintro (hrevoked | hrevokes)
        · exact hrevoked
        · exact hrevokes.elim
      · rw [if_pos hopens]
        rfl
    · rename_i hcan'
      apply Evolves.keep _ False.elim
      intro hopens
      obtain rfl := hinv.eq_of_id hshare hold ((Eq.symm hopens).trans hid)
      exact hcan' hcan
  · refine ⟨_, ?_, .inl hrevoke.shares⟩
    intro share hshare
    rw [haction]
    split
    · refine ⟨⟨rfl, rfl, rfl, rfl⟩, ?_, rfl, False.elim⟩
      intro _
      simp [ShareRow.revoke]
    · rename_i hnot
      exact .keep not_false (fun hrevokes hnone => hnot ⟨hrevokes, hnone⟩)

/-- A share that was there is there after the step, as it evolved. -/
theorem ShareStep.evolves (h : ShareStep sha256 cf i r) (hinv : ShareInv sha256 cf)
    {share : ShareRow} (hshare : share ∈ cf.state.tables.shares) :
  ∃ share' ∈ r.2.tables.shares, Evolves r.1.action share share'
  := by
  obtain ⟨f, hf, hshares | ⟨row, -, -, -, hshares⟩⟩ := h.shares hinv
  · refine ⟨f share, ?_, hf share hshare⟩
    rw [hshares]
    exact List.mem_map_of_mem hshare
  · refine ⟨f share, ?_, hf share hshare⟩
    rw [hshares]
    exact List.mem_append_left _ (List.mem_map_of_mem hshare)

/-- A share after the step is one from before, or new. -/
theorem ShareStep.origin (h : ShareStep sha256 cf i r) (hinv : ShareInv sha256 cf)
    {share' : ShareRow} (hshare' : share' ∈ r.2.tables.shares) :
  (∃ share ∈ cf.state.tables.shares, Evolves r.1.action share share') ∨
    r.1.action = .created share' ∧ share'.views = 0 ∧
      ∀ share ∈ cf.state.tables.shares, share.id ≠ share'.id
  := by
  obtain ⟨f, hf, hshares | ⟨row, haction, hviews, hfresh, hshares⟩⟩ := h.shares hinv
  · rw [hshares] at hshare'
    obtain ⟨share, hshare, rfl⟩ := List.mem_map.mp hshare'
    exact .inl ⟨share, hshare, hf share hshare⟩
  · rw [hshares] at hshare'
    obtain hshare' | hshare' := List.mem_append.mp hshare'
    · obtain ⟨share, hshare, rfl⟩ := List.mem_map.mp hshare'
      exact .inl ⟨share, hshare, hf share hshare⟩
    · rw [List.mem_singleton] at hshare'
      subst hshare'
      exact .inr ⟨haction, hviews, fun share hshare => (hfresh share hshare).1⟩

/-- A column that never changes keeps its values, and a new share brings a new one. -/
theorem ShareStep.nodup (h : ShareStep sha256 cf i r) (hinv : ShareInv sha256 cf)
    {column : ShareRow → Text} (hcolumn : ∀ s s', SameShare s s' → column s = column s')
    (hnew : ∀ s row : ShareRow, s.id ≠ row.id ∧ s.tokenHash ≠ row.tokenHash →
      column s ≠ column row)
    (hnodup : (cf.state.tables.shares.map column).Nodup) :
  (r.2.tables.shares.map column).Nodup
  := by
  obtain ⟨f, hf, hcases⟩ := h.shares hinv
  have hmap : (cf.state.tables.shares.map f).map column =
      cf.state.tables.shares.map column := by
    rw [List.map_map]
    apply List.map_congr_left
    intro share hshare
    exact (hcolumn _ _ (hf share hshare).same).symm
  obtain hshares | ⟨row, -, -, hfresh, hshares⟩ := hcases
  · rw [hshares, hmap]
    exact hnodup
  · rw [hshares, List.map_append, hmap, List.map_singleton, List.nodup_append]
    refine ⟨hnodup, List.nodup_singleton _, ?_⟩
    intro a ha b hb
    obtain ⟨share, hshare, rfl⟩ := List.mem_map.mp ha
    rw [List.mem_singleton] at hb
    rw [hb]
    exact hnew share row (hfresh share hshare)

theorem viewsOf_push (id : Text) :
  viewsOf id (cf.push i r).trace =
    viewsOf id cf.trace + if r.1.action.Opens id then 1 else 0
  := by
  simp only [viewsOf, Conf.push_trace, List.countP_cons, decide_eq_true_eq]

/-- No view of a share has been counted before the share was there. -/
theorem ShareInv.viewsOf_fresh (hinv : ShareInv sha256 cf) {id : Text}
    (hfresh : ∀ share ∈ cf.state.tables.shares, share.id ≠ id) :
  viewsOf id cf.trace = 0
  := by
  unfold viewsOf
  rw [List.countP_eq_zero]
  intro t ht hopens
  rw [decide_eq_true_eq] at hopens
  cases haction : t.2.action with
  | opened view =>
      rw [haction] at hopens
      obtain ⟨share, hshare, hsame⟩ := hinv.known t ht view.share (by rw [haction]; rfl)
      exact hfresh share hshare (hsame.id.symm.trans hopens)
  | _ =>
      rw [haction] at hopens
      exact hopens

theorem ShareInv.step_counted (hinv : ShareInv sha256 cf) (h : ShareStep sha256 cf i r)
    {share : ShareRow} (hshare : share ∈ r.2.tables.shares) :
  share.views = viewsOf share.id (cf.push i r).trace
  := by
  rw [viewsOf_push]
  obtain ⟨old, hold, hevolves⟩ | ⟨haction, hviews, hfresh⟩ := h.origin hinv hshare
  · rw [hevolves.views, hinv.counted old hold, ← hevolves.same.id]
  · have hopens : ¬ r.1.action.Opens share.id := by
      rw [haction]
      exact not_false
    rw [hviews, hinv.viewsOf_fresh hfresh, if_neg hopens]

theorem ShareInv.step_limit (hinv : ShareInv sha256 cf) (h : ShareStep sha256 cf i r)
    {share : ShareRow} (hshare : share ∈ r.2.tables.shares) {maxViews : Nat}
    (hmax : maxViews ∈ share.maxViews) :
  share.views ≤ maxViews
  := by
  obtain ⟨old, hold, hevolves⟩ | ⟨-, hviews, -⟩ := h.origin hinv hshare
  · rw [← hevolves.same.maxViews] at hmax
    rw [hevolves.views]
    split
    · rename_i hopens
      exact hevolves.room hopens maxViews hmax
    · exact hinv.limit old hold maxViews hmax
  · rw [hviews]
    exact Nat.zero_le _

theorem ShareInv.step_grants (hinv : ShareInv sha256 cf) (h : ShareStep sha256 cf i r)
    {row : GrantRow} (hrow : row ∈ r.2.tables.grants) :
  ∃ t ∈ (cf.push i r).trace, ∃ view token, t.2.action = .opened view ∧
    view.grant = some (token, row) ∧ row.shareId = view.share.id ∧
      row.grantHash = hashShareToken sha256 token
  := by
  have hold : row ∈ cf.state.tables.grants → ∃ t ∈ (cf.push i r).trace, ∃ view token,
      t.2.action = .opened view ∧ view.grant = some (token, row) ∧
        row.shareId = view.share.id ∧ row.grantHash = hashShareToken sha256 token := by
    intro hmem
    obtain ⟨t, ht, hrest⟩ := hinv.grants row hmem
    exact ⟨t, List.mem_cons_of_mem _ ht, hrest⟩
  obtain ⟨htables, -⟩ | ⟨_, _, hinsert, _⟩ | ⟨view, hash, haction, hcounts⟩ |
    ⟨_, _, _, hrevoke⟩ := h.cases
  · rw [htables] at hrow
    exact hold hrow
  · rw [(insertShare_ok hinsert).2.2] at hrow
    exact hold hrow
  · obtain hrow | ⟨token, hgrant, hshare, hhash⟩ := hcounts.grants row hrow
    · exact hold hrow
    · exact ⟨(i, r.1), List.mem_cons_self, view, token, haction, hgrant, hshare, hhash⟩
  · rw [hrevoke.grants] at hrow
    exact hold hrow

/-- The share that a step is about is in the table. -/
theorem ShareStep.share_mem (h : ShareStep sha256 cf i r) {share : ShareRow}
    (hshare : r.1.action.share? = some share) :
  ∃ share' ∈ cf.state.tables.shares, SameShare share share'
  := by
  have hdoes := h.law.does
  cases haction : r.1.action with
  | opened view =>
      rw [haction] at hdoes hshare
      cases hshare
      obtain ⟨hash, hcounts⟩ := hdoes
      obtain ⟨old, hold, -, hview⟩ := hcounts.share
      refine ⟨old, hold, ?_⟩
      rw [hview]
      exact ⟨rfl, rfl, rfl, rfl⟩
  | notice s =>
      rw [haction] at hdoes hshare
      cases hshare
      exact ⟨share, hdoes.2.1, .refl share⟩
  | page s =>
      rw [haction] at hdoes hshare
      cases hshare
      exact ⟨share, hdoes.2.1, .refl share⟩
  | bytes s grant =>
      rw [haction] at hdoes hshare
      cases hshare
      exact ⟨share, hdoes.2.1, .refl share⟩
  | _ =>
      rw [haction] at hshare
      cases hshare

theorem ShareInv.step_known (hinv : ShareInv sha256 cf) (h : ShareStep sha256 cf i r)
    {t : Nat × ShareEvent} (ht : t ∈ (cf.push i r).trace) {share : ShareRow}
    (hshare : t.2.action.share? = some share) :
  ∃ share' ∈ r.2.tables.shares, SameShare share share'
  := by
  have hbefore : ∃ share' ∈ cf.state.tables.shares, SameShare share share' := by
    obtain rfl | ht := List.mem_cons.mp ht
    · exact h.share_mem hshare
    · exact hinv.known t ht share hshare
  obtain ⟨share', hshare', hsame⟩ := hbefore
  obtain ⟨share'', hshare'', hevolves⟩ := h.evolves hinv hshare'
  exact ⟨share'', hshare'', hsame.trans hevolves.same⟩

theorem ShareInv.step_revoked (hinv : ShareInv sha256 cf) (h : ShareStep sha256 cf i r)
    {t : Nat × ShareEvent} (ht : t ∈ (cf.push i r).trace) {id : Text}
    (hrevokes : t.2.action.Revokes id) :
  ∃ share ∈ r.2.tables.shares, share.id = id ∧ share.revokedAt ≠ none
  := by
  have hbefore : ∃ share ∈ cf.state.tables.shares, share.id = id ∧
      (share.revokedAt ≠ none ∨ r.1.action.Revokes share.id) := by
    obtain rfl | ht := List.mem_cons.mp ht
    · obtain ⟨-, -, hnone⟩ | ⟨row, haction, -⟩ | ⟨view, hash, haction, -⟩ |
        ⟨ids, userId, haction, hrevoke⟩ := h.cases
      · exact absurd hrevokes (hnone id)
      · rw [haction] at hrevokes
        exact hrevokes.elim
      · rw [haction] at hrevokes
        exact hrevokes.elim
      · have hids : id ∈ ids := by
          rw [haction] at hrevokes
          exact hrevokes
        obtain ⟨share, hshare, rfl⟩ := hrevoke.known id hids
        exact ⟨share, hshare, rfl, .inr hrevokes⟩
    · obtain ⟨share, hshare, hid, hrevoked⟩ := hinv.revoked t ht id hrevokes
      exact ⟨share, hshare, hid, .inl hrevoked⟩
  obtain ⟨share, hshare, rfl, hrevoked⟩ := hbefore
  obtain ⟨share', hshare', hevolves⟩ := h.evolves hinv hshare
  exact ⟨share', hshare', hevolves.same.id.symm, hevolves.revoked hrevoked⟩

/-- A request that releases a page has counted a view of the share before. -/
theorem ShareStep.page_opened (h : ShareStep sha256 cf i r) (hinv : ShareInv sha256 cf)
    {share : ShareRow} (hpage : r.1.action = .page share) :
  ∃ ev ∈ cf.own i, ev.action.Opens share.id
  := by
  obtain ⟨⟨ev, hev, view, hopened, hhash⟩, -⟩ := h.order share hpage
  obtain ⟨known, hknown, hsame⟩ := hinv.known (i, ev) (Conf.mem_own.mp hev) view.share
    (by rw [hopened]; rfl)
  have hshare : share ∈ cf.state.tables.shares := by
    have hdoes := h.law.does
    rw [hpage] at hdoes
    exact hdoes.2.1
  obtain rfl := hinv.eq_of_hash hshare hknown (hhash.symm.trans hsame.tokenHash)
  refine ⟨ev, hev, ?_⟩
  rw [hopened]
  exact hsame.id

theorem ShareInv.step_pages (hinv : ShareInv sha256 cf) (h : ShareStep sha256 cf i r)
    {j : Nat} {ev : ShareEvent} {share : ShareRow} (hev : ev ∈ (cf.push i r).own j)
    (hpage : ev.action = .page share) :
  ∃ ev' ∈ (cf.push i r).own j, ev'.action.Opens share.id
  := by
  rw [Conf.own_push] at hev ⊢
  split at hev
  · rename_i hij
    subst hij
    rw [if_pos rfl]
    obtain rfl | hev := List.mem_cons.mp hev
    · obtain ⟨ev', hev', hopens⟩ := h.page_opened hinv hpage
      exact ⟨ev', List.mem_cons_of_mem _ hev', hopens⟩
    · obtain ⟨ev', hev', hopens⟩ := hinv.pages i ev share hev hpage
      exact ⟨ev', List.mem_cons_of_mem _ hev', hopens⟩
  · rename_i hij
    rw [if_neg hij]
    exact hinv.pages j ev share hev hpage

theorem ShareInv.step_once (hinv : ShareInv sha256 cf) (h : ShareStep sha256 cf i r)
    (id : Text) :
  (((cf.push i r).trace.filter (fun t => t.2.action.ReleasesPage id)).map Prod.fst).Nodup
  := by
  rw [Conf.push_trace, List.filter_cons]
  split
  · rename_i hreleases
    rw [decide_eq_true_eq] at hreleases
    rw [List.map_cons, List.nodup_cons]
    refine ⟨?_, hinv.once id⟩
    intro hmem
    obtain ⟨⟨j, ev⟩, hev, rfl⟩ := List.mem_map.mp hmem
    obtain ⟨hev, hreleases'⟩ := List.mem_filter.mp hev
    rw [decide_eq_true_eq] at hreleases'
    cases haction : r.1.action with
    | page share =>
        have hnot := (h.order share haction).2 ev (Conf.mem_own.mpr hev)
        cases haction' : ev.action with
        | page share' =>
            rw [haction'] at hnot
            exact hnot
        | _ =>
            simp only [haction'] at hreleases'
            exact hreleases'
    | _ =>
        simp only [haction] at hreleases
        exact hreleases
  · exact hinv.once id

/-- Every step of a run with a nondecreasing clock keeps the invariant. -/
theorem ShareInv.step (hinv : ShareInv sha256 cf) (h : ShareStep sha256 cf i r)
    (hclock : cf.state.clock ≤ r.2.clock) :
  ShareInv sha256 (cf.push i r)
  := by
  constructor
  · exact h.nodup hinv (fun _ _ hsame => hsame.id) (fun _ _ hnew => hnew.1) hinv.ids
  · exact h.nodup hinv (fun _ _ hsame => hsame.tokenHash) (fun _ _ hnew => hnew.2) hinv.hashes
  · exact fun share hshare => hinv.step_counted h hshare
  · exact fun share hshare maxViews hmax => hinv.step_limit h hshare hmax
  · exact fun row hrow => hinv.step_grants h hrow
  · exact fun t ht share hshare => hinv.step_known h ht hshare
  · exact fun t ht id hrevokes => hinv.step_revoked h ht hrevokes
  · intro t ht
    obtain rfl | ht := List.mem_cons.mp ht
    · exact Nat.le_of_eq h.law.time
    · exact Nat.le_trans (hinv.clock t ht) hclock
  · exact fun j ev share hev hpage => hinv.step_pages h hev hpage
  · exact hinv.step_once h

/-- A request that releases a page has counted a view, so that there are no more pages than
views. -/
theorem ShareInv.pagesOf_le (hinv : ShareInv sha256 cf) (id : Text) :
  pagesOf id cf.trace ≤ viewsOf id cf.trace
  := by
  have hsub : ((cf.trace.filter (fun t => t.2.action.ReleasesPage id)).map Prod.fst) ⊆
      (cf.trace.filter (fun t => t.2.action.Opens id)).map Prod.fst := by
    intro j hj
    obtain ⟨⟨j, ev⟩, hev, rfl⟩ := List.mem_map.mp hj
    obtain ⟨hev, hreleases⟩ := List.mem_filter.mp hev
    rw [decide_eq_true_eq] at hreleases
    cases haction : ev.action with
    | page share =>
        simp only [haction] at hreleases
        obtain ⟨ev', hev', hopens⟩ := hinv.pages j ev share (Conf.mem_own.mpr hev) haction
        have hid : share.id = id := hreleases
        rw [hid] at hopens
        exact List.mem_map.mpr ⟨(j, ev'), List.mem_filter.mpr
          ⟨Conf.mem_own.mp hev', decide_eq_true hopens⟩, rfl⟩
    | _ =>
        simp only [haction] at hreleases
        exact hreleases.elim
  have hle := (List.subperm_of_subset (hinv.once id) hsub).length_le
  simpa [pagesOf, viewsOf, List.countP_eq_length_filter] using hle

/-- Bytes of a view-limited share are released against a grant of a counted view. -/
theorem ShareStep.againstGrant (h : ShareStep sha256 cf i r) (hinv : ShareInv sha256 cf)
    {share : ShareRow} {grant : Option Text} (haction : r.1.action = .bytes share grant)
    (hlimited : share.maxViews ≠ none) :
  AgainstGrant sha256 cf.trace share grant r.1.time
  := by
  have hdoes := h.law.does
  rw [haction] at hdoes
  obtain ⟨-, -, -, hgrant⟩ := hdoes
  obtain ⟨g, hg, row, hrow, hhash, hshare, hexpires⟩ := hgrant hlimited
  obtain ⟨t, ht, view, token, hopened, hview, hid, htoken⟩ := hinv.grants row hrow
  exact ⟨g, hg, t, ht, view, token, row, hopened, hid.symm.trans hshare, hview,
    htoken.symm.trans hhash, seconds_lt_iff.mp hexpires⟩

/-- What a step releases is of a share that is live. -/
theorem ShareStep.live (h : ShareStep sha256 cf i r) {share : ShareRow}
    (hserved : r.1.action.served? = some share) :
  share ∈ cf.state.tables.shares ∧ share.Live r.1.time
  := by
  have hdoes := h.law.does
  cases haction : r.1.action with
  | notice s =>
      rw [haction] at hdoes hserved
      cases hserved
      exact hdoes.2
  | page s =>
      rw [haction] at hdoes hserved
      cases hserved
      exact hdoes.2
  | bytes s grant =>
      rw [haction] at hdoes hserved
      cases hserved
      exact ⟨hdoes.2.1, hdoes.2.2.1⟩
  | _ =>
      rw [haction] at hserved
      cases hserved

/-- Nothing is released after the share was revoked, or has expired. -/
theorem ShareStep.before_end (h : ShareStep sha256 cf i r) (hinv : ShareInv sha256 cf)
    (hclock : cf.state.clock ≤ r.2.clock) {share : ShareRow}
    (hserved : r.1.action.served? = some share) :
  r.1.time < share.expiresAt * 1000 ∧ ∀ t ∈ cf.trace,
    ¬ t.2.action.Revokes share.id ∧ t.2.time < share.expiresAt * 1000
  := by
  obtain ⟨hmem, hnone, hexpires⟩ := h.live hserved
  refine ⟨hexpires, fun t ht => ⟨?_, ?_⟩⟩
  · intro hrevokes
    obtain ⟨share', hshare', hid, hrevoked⟩ := hinv.revoked t ht _ hrevokes
    obtain rfl := hinv.eq_of_id hshare' hmem hid
    exact hrevoked hnone
  · rw [h.law.time] at hexpires
    exact Nat.lt_of_le_of_lt (Nat.le_trans (hinv.clock t ht) hclock) hexpires

end

theorem shareInv_empty (sha256 : Bytes → Text) :
  ShareInv sha256 ⟨⟨0, .empty⟩, []⟩
  := by
  constructor
  · exact List.nodup_nil
  · exact List.nodup_nil
  · intro share hshare
    cases hshare
  · intro share hshare
    cases hshare
  · intro row hrow
    cases hrow
  · intro t ht
    cases ht
  · intro t ht
    cases ht
  · intro t ht
    cases ht
  · intro j ev share hev
    cases hev
  · exact fun _ => List.nodup_nil

/-- The clock of the run never goes back. -/
def ClockForward (cf : Conf ShareWorld ShareEvent) (_ : Nat) (r : ShareEvent × ShareWorld) :
    Prop :=
  cf.state.clock ≤ r.2.clock

instance (cf : Conf ShareWorld ShareEvent) (i : Nat) (r : ShareEvent × ShareWorld) :
    Decidable (ClockForward cf i r) :=
  inferInstanceAs (Decidable (_ ≤ _))

/-- In every run of share requests under a nondecreasing clock the stored view count of a
share, the number of its counted views and the number of its released pages never exceed
the limit of the share; a page is released by a request that has counted a view of the
share, and bytes of a view-limited share against an unexpired grant that was stored with a
counted view of that share; and nothing is released after the share was revoked, or has
expired. -/
theorem share_accounting (sha256 : Bytes → Text) (presignedUrls : Bool)
    (requests : List ShareRequest) (sched : List (Nat × ShareInput))
    (hclock : (shareServer sha256 presignedUrls requests).Admits ClockForward sched) :
  (∀ share ∈ ((shareServer sha256 presignedUrls requests).run sched).conf.state.tables.shares,
    ∀ maxViews ∈ share.maxViews, share.views ≤ maxViews ∧
      viewsOf share.id ((shareServer sha256 presignedUrls requests).run sched).conf.trace ≤
        maxViews ∧
      pagesOf share.id ((shareServer sha256 presignedUrls requests).run sched).conf.trace ≤
        maxViews) ∧
  (shareServer sha256 presignedUrls requests).Admits (fun cf i r =>
    (∀ share, r.1.action = .page share → ∃ ev ∈ cf.own i, ev.action.Opens share.id) ∧
    (∀ share grant, r.1.action = .bytes share grant → share.maxViews ≠ none →
      AgainstGrant sha256 cf.trace share grant r.1.time) ∧
    ∀ share, r.1.action.served? = some share →
      r.1.time < share.expiresAt * 1000 ∧ ∀ t ∈ cf.trace,
        ¬ t.2.action.Revokes share.id ∧ t.2.time < share.expiresAt * 1000) sched
  := by
  have hsteps := Pool.admits_and.mpr
    ⟨shareServer_steps sha256 presignedUrls requests sched, hclock⟩
  have hstep : ∀ cf i r, ShareStep sha256 cf i r ∧ ClockForward cf i r →
      ShareInv sha256 cf → ShareInv sha256 (cf.push i r) := by
    rintro cf i r ⟨hstep, hclock⟩ hinv
    exact hinv.step hstep hclock
  obtain ⟨hadm, hinv⟩ := hsteps.inv hstep (shareInv_empty sha256)
  constructor
  · intro share hshare maxViews hmax
    have hlimit := hinv.limit share hshare maxViews hmax
    have hviews := hlimit
    rw [hinv.counted share hshare] at hviews
    exact ⟨hlimit, hviews, Nat.le_trans (hinv.pagesOf_le share.id) hviews⟩
  · apply Pool.Admits.mono _ (Pool.admits_and.mpr ⟨hsteps, hadm⟩)
    rintro cf i r ⟨⟨hstep, hclock⟩, hinv⟩
    refine ⟨?_, ?_, ?_⟩
    · intro share hpage
      exact hstep.page_opened hinv hpage
    · intro share grant haction hlimited
      exact hstep.againstGrant hinv haction hlimited
    · intro share hserved
      exact hstep.before_end hinv hclock hserved

/-- SHA-256 of the tokens of the sample run. -/
def sampleTokenHash (bytes : Bytes) : Text :=
  if bytes = List.replicate 43 65 then
    "0f007385b6f9d4b7eeb2748605afe1a984a0a3bfa3f014d09e2a784ce9e5cd1a".toList
  else if bytes = List.replicate 43 66 then
    "412dc46cc9e3cb26f29f7c1415c556349af62904c5d15b0a2d8cfdc5cfa22b34".toList
  else "e3b0c44298fc1c149afbf4c8996fb92427ae41e4649b934ca495991b7852b855".toList

/-- The input of a segment at a time, with the token it draws. -/
def sampleShareInput (now : Nat) (token : Char) : ShareInput where
  now := now
  fault := none
  size := 1
  bytes := [97]
  url := ⟨[], none⟩
  pathKind := some .file
  token := List.replicate 43 token
  uuid := "share".toList
  isAdmin := false

/-- A one-off link is created, opened twice, downloaded with the grant of the view that was
counted, and revoked. -/
def sampleShareRequests : List ShareRequest :=
  [.create sampleContext ⟨"/f".toList, none, some 1⟩,
    .page ⟨List.replicate 43 'A', false, none⟩,
    .page ⟨List.replicate 43 'A', false, none⟩,
    .download (List.replicate 43 'A') (some (List.replicate 43 'B')),
    .revoke sampleContext ⟨some "share".toList, none, none⟩]

/-- Both page requests see the link active before either has counted its view. -/
def sampleShareSchedule : List (Nat × ShareInput) :=
  [(0, sampleShareInput 1000 'A'), (0, sampleShareInput 1000 'A'),
    (1, sampleShareInput 2000 'B'), (2, sampleShareInput 2000 'C'),
    (1, sampleShareInput 2000 'B'), (2, sampleShareInput 2000 'C'),
    (1, sampleShareInput 2000 'B'), (2, sampleShareInput 3000 'C'),
    (1, sampleShareInput 3000 'B'), (1, sampleShareInput 3000 'B'),
    (3, sampleShareInput 4000 'B'), (3, sampleShareInput 4000 'B'),
    (3, sampleShareInput 4000 'B'), (4, sampleShareInput 5000 'B')]

set_option maxRecDepth 4000 in
theorem share_accounting_sampleShareSchedule :
  pagesOf "share".toList ((shareServer sampleTokenHash false sampleShareRequests).run
      sampleShareSchedule).conf.trace = 1 ∧
    ((shareServer sampleTokenHash false sampleShareRequests).run
      sampleShareSchedule).result? 2 = some (.error (.expiredPage 410)) ∧
    ((shareServer sampleTokenHash false sampleShareRequests).run
      sampleShareSchedule).result? 3 = some (.ok (.bytes "application/octet-stream".toList
        "attachment; filename*=UTF-8''f".toList [97])) ∧
    ∀ share ∈ ((shareServer sampleTokenHash false sampleShareRequests).run
      sampleShareSchedule).conf.state.tables.shares, ∀ maxViews ∈ share.maxViews,
      viewsOf share.id ((shareServer sampleTokenHash false sampleShareRequests).run
        sampleShareSchedule).conf.trace ≤ maxViews
  := by
  refine ⟨by decide +kernel, by decide +kernel, by decide +kernel, ?_⟩
  intro share hshare maxViews hmax
  exact ((share_accounting sampleTokenHash false sampleShareRequests sampleShareSchedule
    (by decide +kernel)).1 share hshare maxViews hmax).2.1

end AgentFs

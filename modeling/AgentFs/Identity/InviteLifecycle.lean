import Mathlib.Order.Bounds.Basic
import AgentFs.Identity.Invites

/-!
# The lifecycle of invites

In every run of the operations that create, accept and revoke invites and add members
directly, a token is accepted at most once and never after it was closed, an org has at most
one open invite for an email, and a user ends up with the highest of the role they held and
the roles that were granted to them.
-/

namespace AgentFs

open Async Tabular

/-! ### The order of roles -/

theorem Role.level_injective :
  Function.Injective Role.level
  := by
  intro a b h
  cases a <;> cases b <;> first | rfl | cases h

instance : LinearOrder Role := LinearOrder.lift' Role.level Role.level_injective

/-- The role that a grant leaves is the maximum of the stored one and the granted one. -/
theorem higherRole_eq_max (stored incoming : Role) :
  higherRole stored incoming = max stored incoming
  := by
  cases stored <;> cases incoming <;> rfl

/-- Of two sets of which one lies in the other and bounds it, both have the same greatest
element. -/
theorem isGreatest_congr {α : Type} [PartialOrder α] {s t : Set α} (hsub : s ⊆ t)
    (hbound : ∀ a ∈ t, ∃ b ∈ s, a ≤ b) (a : α) :
  IsGreatest s a ↔ IsGreatest t a
  := by
  constructor
  · rintro ⟨hmem, hupper⟩
    refine ⟨hsub hmem, ?_⟩
    intro b hb
    obtain ⟨c, hc, hle⟩ := hbound b hb
    exact hle.trans (hupper hc)
  · rintro ⟨hmem, hupper⟩
    obtain ⟨b, hb, hle⟩ := hbound a hmem
    obtain rfl := le_antisymm hle (hupper (hsub hb))
    exact ⟨hb, fun c hc => hupper (hsub hc)⟩

/-- The roles that a user holds in a scope or is granted there. -/
def heldOrGranted (members grants : List Member) (scopeId userId : Text) : Set Role :=
  {role | memberRole members scopeId userId = some role ∨ ⟨scopeId, userId, role⟩ ∈ grants}

theorem memberRole_grantRole {scopeId userId : Text} {role : Role} {members : List Member}
    (s u : Text) :
  memberRole (grantRole scopeId userId role members) s u =
    if (s, u) = (scopeId, userId) then
      some (((memberRole members s u).map (max · role)).getD role)
    else memberRole members s u
  := by
  have hkeep : ∀ m : Member, (if m.key = (scopeId, userId) then
      { m with role := higherRole m.role role } else m).key = m.key := by
    intro m
    split
    · rfl
    · rfl
  unfold memberRole grantRole
  by_cases hsome : (findMember members scopeId userId).isSome
  · rw [if_pos hsome]
    have hfind : findMember (members.map (fun m =>
        if m.key = (scopeId, userId) then { m with role := higherRole m.role role } else m)) s u =
        (findMember members s u).map (fun m =>
          if m.key = (scopeId, userId) then { m with role := higherRole m.role role } else m) := by
      unfold findMember
      rw [List.find?_map]
      congr 2
      funext m
      rw [Function.comp_apply, hkeep]
    rw [hfind]
    split
    · rename_i hsame
      obtain ⟨rfl, rfl⟩ := Prod.mk.inj hsame
      obtain ⟨m, hm⟩ := Option.isSome_iff_exists.mp hsome
      rw [hm]
      simp [(findMember_mem hm).2, higherRole_eq_max]
    · rename_i hne
      cases hm : findMember members s u with
      | none => rfl
      | some m =>
          have hmkey : m.key ≠ (scopeId, userId) := by
            rw [(findMember_mem hm).2]
            exact hne
          simp [hmkey]
  · rw [if_neg hsome]
    rw [Option.not_isSome_iff_eq_none] at hsome
    unfold findMember at hsome ⊢
    rw [List.find?_append]
    split
    · rename_i hsame
      obtain ⟨rfl, rfl⟩ := Prod.mk.inj hsame
      rw [hsome]
      simp [Member.key]
    · rename_i hne
      have hnew : ((⟨scopeId, userId, role⟩ : Member).key = (s, u)) = False := by
        simp [Member.key]
        intro hs hu
        exact hne (by rw [hs, hu])
      simp [hnew]

/-- After a series of grants a user holds the highest of the role they held and the roles
that were granted to them. -/
theorem memberRole_grantAll (grants members : List Member) (scopeId userId : Text)
    (role : Role) :
  memberRole (grantAll grants members) scopeId userId = some role ↔
    IsGreatest (heldOrGranted members grants scopeId userId) role
  := by
  induction grants generalizing members with
  | nil =>
      constructor
      · intro hheld
        refine ⟨.inl hheld, ?_⟩
        rintro r (hr | hr)
        · exact le_of_eq (Option.some.inj (hr.symm.trans hheld))
        · cases hr
      · rintro ⟨hheld | hgranted, -⟩
        · exact hheld
        · cases hgranted
  | cons grant grants ih =>
      have hcons : grantAll (grant :: grants) members =
          grantAll grants (grantRole grant.scopeId grant.userId grant.role members) := rfl
      rw [hcons, ih]
      by_cases hsame : (scopeId, userId) = (grant.scopeId, grant.userId)
      · have hgrant : ∀ r, (⟨scopeId, userId, r⟩ : Member) = grant ↔ r = grant.role := by
          intro r
          obtain ⟨rfl, rfl⟩ := Prod.mk.inj hsame
          constructor
          · intro heq
            rw [← heq]
          · rintro rfl
            rfl
        have hnew : memberRole (grantRole grant.scopeId grant.userId grant.role members)
            scopeId userId =
            some (((memberRole members scopeId userId).map (max · grant.role)).getD grant.role) := by
          rw [memberRole_grantRole, if_pos hsame]
        apply isGreatest_congr
        · rintro r (hr | hr)
          · rw [hnew] at hr
            cases hheld : memberRole members scopeId userId with
            | none =>
                rw [hheld] at hr
                cases hr
                exact .inr (List.mem_cons.mpr (.inl ((hgrant _).mpr rfl)))
            | some held =>
                rw [hheld] at hr
                cases hr
                show max held grant.role ∈ _
                obtain hle | hle := le_total grant.role held
                · rw [max_eq_left hle]
                  exact .inl hheld
                · rw [max_eq_right hle]
                  exact .inr (List.mem_cons.mpr (.inl ((hgrant _).mpr rfl)))
          · exact .inr (List.mem_cons_of_mem _ hr)
        · rintro r (hr | hr)
          · refine ⟨_, .inl hnew, ?_⟩
            rw [hr]
            exact le_max_left r grant.role
          · obtain hr | hr := List.mem_cons.mp hr
            · refine ⟨_, .inl hnew, ?_⟩
              rw [(hgrant r).mp hr]
              cases memberRole members scopeId userId with
              | none => exact le_refl _
              | some held => exact le_max_right held grant.role
            · exact ⟨r, .inr hr, le_refl r⟩
      · have hgrant : ∀ r, (⟨scopeId, userId, r⟩ : Member) ≠ grant := by
          rintro r rfl
          exact hsame rfl
        have heq : heldOrGranted (grantRole grant.scopeId grant.userId grant.role members) grants
            scopeId userId = heldOrGranted members (grant :: grants) scopeId userId := by
          unfold heldOrGranted
          ext r
          rw [Set.mem_ofPred_eq, Set.mem_ofPred_eq, memberRole_grantRole, if_neg hsame,
            List.mem_cons, or_iff_right (hgrant r)]
        rw [heq]

/-! ### Runs -/

section

variable (toLowerCase lower sha256 : Text → Text) (db : Directory)
  (requests : List InviteRequest)

/-- What the request at the index does. -/
def DoesAt (i : Nat) : Guarantee Directory DirAction := fun h s r =>
  ∃ request, requests[i]? = some request ∧ request.Does toLowerCase lower sha256 h s r

theorem doesAt_interference :
  Interference (DirEvolves toLowerCase) (DoesAt toLowerCase lower sha256 requests)
  where
    refl := fun _ _ h => .refl h.sound
    trans := fun _ _ _ => .trans
    within := by
      rintro i h s t r hst ⟨request, -, hdoes⟩
      exact ⟨hst.sound.step hdoes.invites, hdoes.invites.persist, hdoes.users, hdoes.drives⟩

/-- An operation that succeeds has written. -/
def WroteOnSuccess (h : List DirAction) (_ : Directory)
    (r : Except IdentityError DirAnswer) : Prop :=
  match r with
  | .ok _ => ¬ NoWrites h
  | .error _ => True

theorem invitePool_relyOn (hs : InvitesSound toLowerCase db.invites) :
  (invitePool toLowerCase lower sha256 db requests).RelyOn (DirEvolves toLowerCase)
    (DoesAt toLowerCase lower sha256 requests) (fun _ => WroteOnSuccess)
  := by
  intro i p hp
  refine ⟨db, .refl hs, ?_⟩
  unfold invitePool at hp
  rw [List.getElem?_map] at hp
  obtain ⟨request, hrequest, rfl⟩ := Option.map_eq_some_iff.mp hp
  have hrelies := request.program_relies toLowerCase lower sha256 hs
  apply Prog.Relies.weaken (fun h s r hdoes => ⟨request, hrequest, hdoes⟩)
  apply Prog.Relies.mono _ hrelies
  rintro h s (e | answer) hwritten
  · trivial
  · exact hwritten

/-- Every step of a run does what its request does, and what is left of every request still
does. -/
theorem invitePool_run (hs : InvitesSound toLowerCase db.invites)
    (sched : List (Nat × DirInput)) :
  (invitePool toLowerCase lower sha256 db requests).Admits
      (fun cf i r => DoesAt toLowerCase lower sha256 requests i (cf.own i) cf.state r) sched ∧
    ((invitePool toLowerCase lower sha256 db requests).run sched).RelyOn (DirEvolves toLowerCase)
      (DoesAt toLowerCase lower sha256 requests) (fun _ => WroteOnSuccess)
  := by
  obtain ⟨hadmits, hrun⟩ := Pool.run_relies
    (doesAt_interference toLowerCase lower sha256 requests)
    (invitePool_relyOn toLowerCase lower sha256 db requests hs) sched
  exact ⟨hadmits.mono (fun _ _ _ h => h.2), hrun⟩

end

section

variable {toLowerCase lower sha256 : Text → Text} {requests : List InviteRequest}

/-- An open invite of its own token lets an accept write; once it is closed, none does. -/
theorem DoesAt.reads_of_closed {i : Nat} {h : List DirAction} {s : Directory}
    {r : DirAction × Directory} {token userId : Text}
    (hdoes : DoesAt toLowerCase lower sha256 requests i h s r)
    (hrequest : requests[i]? = some (.acceptInvite token userId))
    (hsound : InvitesSound toLowerCase s.invites) (hclosed : TokenClosed sha256 token s) :
  r.1.Reads
  := by
  obtain ⟨request, hrequest', hdoes⟩ := hdoes
  rw [hrequest] at hrequest'
  cases hrequest'
  by_contra hwrites
  exact (hdoes.accepts token userId rfl hwrites).1 (hclosed.pendingInvite hsound)

theorem noWrites_own_push {cf : DirConfig} {i j : Nat} {r : DirAction × Directory}
    (h : NoWrites (cf.own i)) (hreads : j = i → r.1.Reads) :
  NoWrites ((cf.push j r).own i)
  := by
  rw [Conf.own_push]
  split
  · rename_i heq
    exact h.cons (hreads heq)
  · exact h

/-- While a token is closed, an accept of it that has written nothing writes nothing. -/
theorem closed_token_reads {P : Pool Directory DirInput DirAction (Except IdentityError DirAnswer)}
    {token userId : Text} {i : Nat} {sched : List (Nat × DirInput)}
    (hrequest : requests[i]? = some (.acceptInvite token userId))
    (hadmits : P.Admits
      (fun cf i r => DoesAt toLowerCase lower sha256 requests i (cf.own i) cf.state r) sched)
    (hsound : InvitesSound toLowerCase P.conf.state.invites)
    (hclosed : TokenClosed sha256 token P.conf.state) (hclean : NoWrites (P.conf.own i)) :
  NoWrites ((P.run sched).conf.own i)
  := by
  have hinv := hadmits.inv (I := fun cf => InvitesSound toLowerCase cf.state.invites ∧
    TokenClosed sha256 token cf.state ∧ NoWrites (cf.own i)) ?_ ⟨hsound, hclosed, hclean⟩
  · exact hinv.2.2.2
  · rintro cf j r hdoes ⟨hsound, hclosed, hclean⟩
    obtain ⟨request, -, hstep⟩ := id hdoes
    refine ⟨hsound.step hstep.invites, hclosed.persist hstep.invites.persist, ?_⟩
    apply noWrites_own_push hclean
    rintro rfl
    exact hdoes.reads_of_closed hrequest hsound hclosed

/-- Of two accepts of one token at most one has written, and then the token is closed. -/
def WrittenOnce (sha256 : Text → Text) (token : Text) (i j : Nat) (cf : DirConfig) : Prop :=
  (NoWrites (cf.own i) ∧ NoWrites (cf.own j)) ∨
    TokenClosed sha256 token cf.state ∧ (NoWrites (cf.own i) ∨ NoWrites (cf.own j))

theorem WrittenOnce.symm {token : Text} {i j : Nat} {cf : DirConfig}
    (h : WrittenOnce sha256 token i j cf) :
  WrittenOnce sha256 token j i cf
  := h.imp And.symm (And.imp_right Or.symm)

/-- A step of the first of two accepts. -/
theorem WrittenOnce.step_own {token userId : Text} {i j : Nat} {cf : DirConfig}
    {r : DirAction × Directory} (hne : i ≠ j)
    (hrequest : requests[i]? = some (.acceptInvite token userId))
    (hdoes : DoesAt toLowerCase lower sha256 requests i (cf.own i) cf.state r)
    (hsound : InvitesSound toLowerCase cf.state.invites)
    (h : WrittenOnce sha256 token i j cf) :
  WrittenOnce sha256 token i j (cf.push i r)
  := by
  obtain ⟨request, hrequest', hstep⟩ := id hdoes
  have hother : (cf.push i r).own j = cf.own j := Conf.own_push_of_ne hne cf r
  by_cases hreads : r.1.Reads
  · have hown : NoWrites (cf.own i) → NoWrites ((cf.push i r).own i) :=
      fun hclean => noWrites_own_push hclean (fun _ => hreads)
    obtain ⟨hi, hj⟩ | ⟨hclosed, hclean⟩ := h
    · exact .inl ⟨hown hi, by rwa [hother]⟩
    · right
      refine ⟨hclosed.persist hstep.invites.persist, ?_⟩
      rw [hother]
      exact hclean.imp_left hown
  · have hopen : ¬ TokenClosed sha256 token cf.state :=
      fun hclosed => hreads (hdoes.reads_of_closed hrequest hsound hclosed)
    obtain ⟨-, hj⟩ | ⟨hclosed, -⟩ := h
    · right
      rw [hrequest] at hrequest'
      cases hrequest'
      refine ⟨(hstep.accepts token userId rfl hreads).2, .inr ?_⟩
      rwa [hother]
    · exact absurd hclosed hopen

theorem WrittenOnce.step_other {token : Text} {i j k : Nat} {cf : DirConfig}
    {r : DirAction × Directory} (hi : k ≠ i) (hj : k ≠ j)
    (hdoes : DoesAt toLowerCase lower sha256 requests k (cf.own k) cf.state r)
    (h : WrittenOnce sha256 token i j cf) :
  WrittenOnce sha256 token i j (cf.push k r)
  := by
  obtain ⟨request, -, hstep⟩ := hdoes
  unfold WrittenOnce
  rw [Conf.own_push_of_ne hi, Conf.own_push_of_ne hj]
  exact h.imp_right (And.imp_left (fun hclosed => hclosed.persist hstep.invites.persist))

end

/-! ### What holds of every run -/

/-- An org has at most one open invite for a normalized email. -/
def OneOpenInvite (toLowerCase : Text → Text) (db : Directory) : Prop :=
  (∀ i ∈ db.invites, ∃ email, i.email = normalizeInviteEmail toLowerCase email) ∧
    ∀ orgId email, (db.invites.filter (fun i => i.Open ∧ i.orgId = orgId ∧
      i.email = normalizeInviteEmail toLowerCase email)).length ≤ 1

theorem InvitesSound.oneOpenInvite {toLowerCase : Text → Text} {db : Directory}
    (h : InvitesSound toLowerCase db.invites) :
  OneOpenInvite toLowerCase db
  := by
  refine ⟨h.normal, ?_⟩
  intro orgId email
  have hone := h.oneOpen.length_filter_le_one
    (p := fun i => i.orgId = orgId ∧ i.email = normalizeInviteEmail toLowerCase email)
    (k := (orgId, normalizeInviteEmail toLowerCase email)) ?_
  · rw [List.filter_filter] at hone
    refine le_of_eq_of_le ?_ hone
    congr 1
    apply List.filter_congr
    intro i _
    rw [Bool.decide_and, Bool.and_comm]
  · intro i _ hi
    rw [decide_eq_true_iff] at hi
    exact Prod.ext hi.1 hi.2

section

variable (toLowerCase lower sha256 : Text → Text) (db : Directory)
  (requests : List InviteRequest) (sched : List (Nat × DirInput))

/-- No two requests accept the same token. -/
def TokensAcceptedOnce : Prop :=
  ∀ token u v i j a b, i ≠ j → requests[i]? = some (.acceptInvite token u) →
    requests[j]? = some (.acceptInvite token v) →
    ((invitePool toLowerCase lower sha256 db requests).run sched).result? i = some (.ok a) →
    ((invitePool toLowerCase lower sha256 db requests).run sched).result? j ≠ some (.ok b)

/-- An accept that has not returned when its token is accepted, revoked or replaced does not
succeed. -/
def ClosedTokensRefused : Prop :=
  ∀ pre post token userId i answer, sched = pre ++ post →
    requests[i]? = some (.acceptInvite token userId) →
    ((invitePool toLowerCase lower sha256 db requests).run pre).result? i = none →
    TokenClosed sha256 token
      ((invitePool toLowerCase lower sha256 db requests).run pre).conf.state →
    ((invitePool toLowerCase lower sha256 db requests).run sched).result? i ≠ some (.ok answer)

/-- The roles that a step grants. -/
def stepGrants (part : InviteGrants → List Member) (cf : DirConfig) (i : Nat)
    (r : DirAction × Directory) : List Member :=
  match requests[i]? with
  | some request =>
      if r.1.Grants then part (request.grants lower sha256 cf.state) else []
  | none => []

/-- Every user ends up with the highest of the role they held and the roles that the steps of
the run have granted to them. -/
def RolesAreMaxima (part : InviteGrants → List Member) (members : Directory → List Member) :
    Prop :=
  ∀ scopeId userId role,
    memberRole
        (members ((invitePool toLowerCase lower sha256 db requests).run sched).conf.state)
        scopeId userId = some role ↔
      IsGreatest (heldOrGranted (members db)
        ((invitePool toLowerCase lower sha256 db requests).yields
          (stepGrants lower sha256 requests part) sched) scopeId userId) role

theorem RolesAreMaxima.of_steps {part : InviteGrants → List Member}
    {members : Directory → List Member} (hs : InvitesSound toLowerCase db.invites)
    (hstep : ∀ {request : InviteRequest} {h s r},
      request.Does toLowerCase lower sha256 h s r → members r.2 =
        if r.1.Grants then grantAll (part (request.grants lower sha256 s)) (members s)
        else members s) :
  RolesAreMaxima toLowerCase lower sha256 db requests sched part members
  := by
  intro scopeId userId role
  rw [← memberRole_grantAll]
  have hfold : members
      ((invitePool toLowerCase lower sha256 db requests).run sched).conf.state =
      grantAll ((invitePool toLowerCase lower sha256 db requests).yields
        (stepGrants lower sha256 requests part) sched) (members db) := by
    apply Pool.Admits.foldl_yields _ (invitePool_run toLowerCase lower sha256 db requests hs sched).1
    rintro cf i r ⟨request, hrequest, hdoes⟩
    unfold stepGrants
    rw [hrequest, hstep hdoes]
    dsimp only
    split
    · rfl
    · rfl
  rw [hfold]

theorem invitePool_sound (hs : InvitesSound toLowerCase db.invites) :
  InvitesSound toLowerCase
    ((invitePool toLowerCase lower sha256 db requests).run sched).conf.state.invites
  := by
  have hadmits := (invitePool_run toLowerCase lower sha256 db requests hs sched).1
  apply (hadmits.inv (I := fun cf => InvitesSound toLowerCase cf.state.invites) _ hs).2
  rintro cf i r ⟨request, -, hdoes⟩ hsound
  exact hsound.step hdoes.invites

theorem closedTokensRefused (hs : InvitesSound toLowerCase db.invites) :
  ClosedTokensRefused toLowerCase lower sha256 db requests sched
  := by
  rintro pre post token userId i answer rfl hrequest hunfinished hclosed
  rw [Pool.run_append]
  have hrely := (invitePool_run toLowerCase lower sha256 db requests hs pre).2
  have hsound := invitePool_sound toLowerCase lower sha256 db requests pre hs
  have hlt : i < ((invitePool toLowerCase lower sha256 db requests).run pre).procs.length := by
    rw [Pool.length_run]
    unfold invitePool
    rw [List.length_map]
    exact (List.getElem?_eq_some_iff.mp hrequest).1
  generalize (invitePool toLowerCase lower sha256 db requests).run pre = P at *
  intro hok
  obtain ⟨hadmits, hrely'⟩ := Pool.run_relies
    (doesAt_interference toLowerCase lower sha256 requests) hrely post
  obtain ⟨r, request, -, hnext⟩ := hrely.unfinished hlt hunfinished ⟨false, 0, [], []⟩
  have hclean := closed_token_reads hrequest (hadmits.mono (fun _ _ _ h => h.2)) hsound hclosed
    hnext.clean
  obtain ⟨s, -, hwritten⟩ := hrely'.result hok
  exact hwritten hclean

theorem tokensAcceptedOnce (hs : InvitesSound toLowerCase db.invites) :
  TokensAcceptedOnce toLowerCase lower sha256 db requests sched
  := by
  intro token u v i j a b hne hi hj hoki hokj
  obtain ⟨hadmits, hrely⟩ := invitePool_run toLowerCase lower sha256 db requests hs sched
  have hstart : WrittenOnce sha256 token i j
      (invitePool toLowerCase lower sha256 db requests).conf := by
    left
    constructor
    · intro e he
      cases he
    · intro e he
      cases he
  have hinv := hadmits.inv
    (I := fun cf => InvitesSound toLowerCase cf.state.invites ∧ WrittenOnce sha256 token i j cf)
    ?_ ⟨hs, hstart⟩
  · obtain ⟨si, -, hwi⟩ := hrely.result hoki
    obtain ⟨sj, -, hwj⟩ := hrely.result hokj
    obtain ⟨hclean, -⟩ | ⟨-, hclean | hclean⟩ := hinv.2.2
    · exact hwi hclean
    · exact hwi hclean
    · exact hwj hclean
  · rintro cf k r hdoes ⟨hsound, honce⟩
    obtain ⟨request, -, hstep⟩ := id hdoes
    refine ⟨hsound.step hstep.invites, ?_⟩
    by_cases hki : k = i
    · subst hki
      exact honce.step_own hne hi hdoes hsound
    · by_cases hkj : k = j
      · subst hkj
        exact (honce.symm.step_own (Ne.symm hne) hj hdoes hsound).symm
      · exact honce.step_other hki hkj hdoes

/-- In every run a token is accepted at most once and never after it was closed, an org has at
most one open invite for an email, and every user ends up with the highest of the roles that
they held and were granted, in the org and on its drives. -/
theorem invite_lifecycle
    (hs : InvitesSound toLowerCase db.invites) :
  TokensAcceptedOnce toLowerCase lower sha256 db requests sched ∧
    ClosedTokensRefused toLowerCase lower sha256 db requests sched ∧
    OneOpenInvite toLowerCase
      ((invitePool toLowerCase lower sha256 db requests).run sched).conf.state ∧
    RolesAreMaxima toLowerCase lower sha256 db requests sched InviteGrants.org
      Directory.orgMembers ∧
    RolesAreMaxima toLowerCase lower sha256 db requests sched InviteGrants.drives
      Directory.driveMembers
  := by
  refine ⟨?_, ?_, ?_, ?_, ?_⟩
  · exact tokensAcceptedOnce toLowerCase lower sha256 db requests sched hs
  · exact closedTokensRefused toLowerCase lower sha256 db requests sched hs
  · exact (invitePool_sound toLowerCase lower sha256 db requests sched hs).oneOpenInvite
  · exact RolesAreMaxima.of_steps toLowerCase lower sha256 db requests sched hs
      (fun hdoes => hdoes.orgMembers)
  · exact RolesAreMaxima.of_steps toLowerCase lower sha256 db requests sched hs
      (fun hdoes => hdoes.driveMembers)

end

/-- Two accepts of one token, a revocation of its invite and a new invite for its email. -/
def sampleInviteRequests : List InviteRequest :=
  [.acceptInvite sampleInviteInput.token "0".toList,
    .acceptInvite sampleInviteInput.token "0".toList,
    .revokeInvite "o".toList "i".toList,
    .createPendingInvite "o".toList "ALICE@x.io".toList .admin [] "admin".toList]

theorem invite_lifecycle_sampleInviteRequests :
  TokensAcceptedOnce (·.map Char.toLower) (·.map Char.toLower) (fun t => t)
      (sampleInvited ["alice@x.io"] "alice@x.io") sampleInviteRequests
      ([0, 1, 0, 1, 0, 1, 0, 1, 2, 3].map (fun i => (i, sampleInviteInput))) ∧
    OneOpenInvite (·.map Char.toLower)
      ((invitePool (·.map Char.toLower) (·.map Char.toLower) (fun t => t)
        (sampleInvited ["alice@x.io"] "alice@x.io") sampleInviteRequests).run
        ([0, 1, 0, 1, 0, 1, 0, 1, 2, 3].map (fun i => (i, sampleInviteInput)))).conf.state
  := by
  have hs : InvitesSound (·.map Char.toLower)
      (sampleInvited ["alice@x.io"] "alice@x.io").invites := by
    constructor
    · decide
    · decide
    · decide
    · intro i hi
      obtain rfl := List.mem_singleton.mp hi
      exact ⟨"alice@x.io".toList, rfl⟩
  obtain ⟨honce, -, hone, -, -⟩ := invite_lifecycle (·.map Char.toLower) (·.map Char.toLower)
    (fun t => t) (sampleInvited ["alice@x.io"] "alice@x.io") sampleInviteRequests
    ([0, 1, 0, 1, 0, 1, 0, 1, 2, 3].map (fun i => (i, sampleInviteInput))) hs
  exact ⟨honce, hone⟩

end AgentFs

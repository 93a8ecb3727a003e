import AgentFs.Identity.InviteAccept
import AgentFs.Identity.LastAdmin
import AgentFs.Lib.Rely

/-!
# What the invite operations do

Creating, accepting and revoking invites, and adding members directly.  Each of these
operations reads first and writes in its last statement.  No operation moves a user, an org
or a drive, and an invite is only ever closed; so what an operation has read about them still
holds when it writes, whatever the others have done in between.
-/

namespace AgentFs

open Async Tabular

/-! ### Requests -/

/-- A request that creates, accepts or revokes an invite, or adds a member directly. -/
inductive InviteRequest where
  | createPendingInvite (orgId email : Text) (role : Role) (drives : List DriveGrant)
      (invitedBy : Text)
  | acceptInvite (token userId : Text)
  | revokeInvite (orgId inviteId : Text)
  | inviteToOrg (params : InviteParams)
  | addDriveMember (orgId driveId : Text) (role : Role) (account : AccountRef)
  deriving DecidableEq, Repr

section

variable (toLowerCase lower sha256 : Text → Text)

/-- The program of a request. -/
def InviteRequest.program : InviteRequest → DirOp DirAnswer
  | .createPendingInvite orgId email role drives invitedBy =>
      AgentFs.createPendingInvite toLowerCase sha256 orgId email role drives invitedBy
  | .acceptInvite token userId => AgentFs.acceptInvite lower sha256 token userId
  | .revokeInvite orgId inviteId => AgentFs.revokeInvite orgId inviteId
  | .inviteToOrg params => AgentFs.inviteToOrg toLowerCase lower sha256 params
  | .addDriveMember orgId driveId role account =>
      AgentFs.addDriveMember lower orgId driveId role account

/-- The requests that the processes on one database have received. -/
def invitePool (db : Directory) (requests : List InviteRequest) :
    Pool Directory DirInput DirAction (Except IdentityError DirAnswer) where
  conf := ⟨db, []⟩
  procs := requests.map (fun r => (r.program toLowerCase lower sha256).run)

end

/-! ### The table of invites -/

/-- What no operation changes of an invite. -/
def InviteRow.core (i : InviteRow) : InviteRow :=
  { i with acceptedAt := none, acceptedBy := none, revokedAt := none }

/-- The org and the email that an invite is for. -/
def InviteRow.slot (i : InviteRow) : Text × Text := (i.orgId, i.email)

/-- The map closes open invites and keeps all others. -/
def Closes (f : InviteRow → InviteRow) : Prop :=
  ∀ i, f i = i ∨ i.Open ∧ (f i).core = i.core ∧ ¬ (f i).Open

theorem Closes.core {f : InviteRow → InviteRow} (hf : Closes f) (i : InviteRow) :
  (f i).core = i.core
  := by
  obtain hkept | ⟨-, hcore, -⟩ := hf i
  · rw [hkept]
  · exact hcore

theorem closes_of {f g : InviteRow → InviteRow} {p : InviteRow → Prop} [DecidablePred p]
    (hf : ∀ i, f i = if p i then g i else i) (hopen : ∀ i, p i → i.Open)
    (hcore : ∀ i, (g i).core = i.core) (hclosed : ∀ i, ¬ (g i).Open) :
  Closes f
  := by
  intro i
  rw [hf i]
  split
  · rename_i hp
    exact .inr ⟨hopen i hp, hcore i, hclosed i⟩
  · exact .inl rfl

/-- What one statement does to the table of invites: it closes some, and may add an open one
for an org and a normalized email that have none. -/
inductive InvitesStep (toLowerCase : Text → Text) (invites : List InviteRow) :
    List InviteRow → Prop where
  | closed {f : InviteRow → InviteRow} (closes : Closes f) :
      InvitesStep toLowerCase invites (invites.map f)
  | created {f : InviteRow → InviteRow} (closes : Closes f) (row : InviteRow) (email : Text)
      (normal : row.email = normalizeInviteEmail toLowerCase email)
      (fresh : ∀ i ∈ invites.map f,
        i.id ≠ row.id ∧ i.tokenHash ≠ row.tokenHash ∧ ¬ (i.Open ∧ i.slot = row.slot)) :
      InvitesStep toLowerCase invites (invites.map f ++ [row])

theorem InvitesStep.refl (toLowerCase : Text → Text) (invites : List InviteRow) :
  InvitesStep toLowerCase invites invites
  := by
  have hid : InvitesStep toLowerCase invites (invites.map id) := .closed (fun _ => .inl rfl)
  rwa [List.map_id] at hid

/-- Ids and token hashes are unique, there is at most one open invite for an org and an
email, and every email is normalized. -/
structure InvitesSound (toLowerCase : Text → Text) (invites : List InviteRow) : Prop where
  idKey : Keyed InviteRow.id invites
  tokenKey : Keyed InviteRow.tokenHash invites
  oneOpen : Keyed InviteRow.slot (invites.filter (fun i => i.Open))
  normal : ∀ i ∈ invites, ∃ email, i.email = normalizeInviteEmail toLowerCase email

/-- Closing invites opens none. -/
theorem Closes.filter_open {f : InviteRow → InviteRow} (hf : Closes f)
    (invites : List InviteRow) :
  ((invites.map f).filter (fun i => i.Open)).Sublist (invites.filter (fun i => i.Open))
  := by
  induction invites with
  | nil => exact List.Sublist.refl _
  | cons i invites ih =>
      rw [List.map_cons]
      obtain hkept | ⟨hopen, -, hclosed⟩ := hf i
      · rw [hkept]
        by_cases hopen : i.Open
        · rw [List.filter_cons_of_pos (by simpa using hopen),
            List.filter_cons_of_pos (by simpa using hopen)]
          exact ih.cons_cons i
        · rw [List.filter_cons_of_neg (by simpa using hopen),
            List.filter_cons_of_neg (by simpa using hopen)]
          exact ih
      · rw [List.filter_cons_of_neg (by simpa using hclosed),
          List.filter_cons_of_pos (by simpa using hopen)]
        exact ih.cons i

theorem InvitesSound.closed {toLowerCase : Text → Text} {invites : List InviteRow}
    (h : InvitesSound toLowerCase invites) {f : InviteRow → InviteRow} (hf : Closes f) :
  InvitesSound toLowerCase (invites.map f)
  := by
  constructor
  · apply h.idKey.map
    intro i _
    show (f i).core.id = i.core.id
    rw [hf.core]
  · apply h.tokenKey.map
    intro i _
    show (f i).core.tokenHash = i.core.tokenHash
    rw [hf.core]
  · exact List.Nodup.sublist ((hf.filter_open invites).map _) h.oneOpen
  · intro i hi
    obtain ⟨j, hj, rfl⟩ := List.mem_map.mp hi
    obtain ⟨email, hemail⟩ := h.normal j hj
    refine ⟨email, ?_⟩
    show (f j).core.email = _
    rw [hf.core]
    exact hemail

/-- The table of invites stays sound. -/
theorem InvitesSound.step {toLowerCase : Text → Text} {invites invites' : List InviteRow}
    (h : InvitesSound toLowerCase invites) (hstep : InvitesStep toLowerCase invites invites') :
  InvitesSound toLowerCase invites'
  := by
  cases hstep with
  | closed hf => exact h.closed hf
  | created hf row email hnormal hfresh =>
      have hclosed := h.closed hf
      constructor
      · exact hclosed.idKey.concat (fun i hi => (hfresh i hi).1)
      · exact hclosed.tokenKey.concat (fun i hi => (hfresh i hi).2.1)
      · rw [List.filter_append]
        by_cases hopen : row.Open
        · rw [List.filter_cons_of_pos (by simpa using hopen), List.filter_nil]
          apply hclosed.oneOpen.concat
          intro i hi hslot
          have hiopen := List.of_mem_filter hi
          rw [decide_eq_true_iff] at hiopen
          exact (hfresh i (List.mem_of_mem_filter hi)).2.2 ⟨hiopen, hslot⟩
        · rw [List.filter_cons_of_neg (by simpa using hopen), List.filter_nil, List.append_nil]
          exact hclosed.oneOpen
      · intro i hi
        obtain hi | hi := List.mem_append.mp hi
        · exact hclosed.normal i hi
        · obtain rfl := List.mem_singleton.mp hi
          exact ⟨email, hnormal⟩

/-- Every invite is still there, and an invite that was closed is as it was. -/
def InvitesPersist (invites invites' : List InviteRow) : Prop :=
  ∀ i ∈ invites, ∃ j ∈ invites', j.core = i.core ∧ (i.Open ∨ j = i)

theorem InvitesPersist.refl (invites : List InviteRow) :
  InvitesPersist invites invites
  := fun i hi => ⟨i, hi, rfl, .inr rfl⟩

theorem InvitesPersist.trans {a b c : List InviteRow} (hab : InvitesPersist a b)
    (hbc : InvitesPersist b c) :
  InvitesPersist a c
  := by
  intro i hi
  obtain ⟨j, hj, hcore, hij⟩ := hab i hi
  obtain ⟨k, hk, hcore', hjk⟩ := hbc j hj
  refine ⟨k, hk, hcore'.trans hcore, ?_⟩
  obtain hopen | rfl := hij
  · exact .inl hopen
  · exact hjk

theorem InvitesStep.persist {toLowerCase : Text → Text} {invites invites' : List InviteRow}
    (h : InvitesStep toLowerCase invites invites') :
  InvitesPersist invites invites'
  := by
  have hclosed : ∀ {f}, Closes f → InvitesPersist invites (invites.map f) := by
    intro f hf i hi
    refine ⟨f i, List.mem_map_of_mem hi, hf.core i, ?_⟩
    exact (hf i).symm.imp And.left id
  cases h with
  | closed hf => exact hclosed hf
  | created hf row email hnormal hfresh =>
      intro i hi
      obtain ⟨j, hj, hcore⟩ := hclosed hf i hi
      exact ⟨j, List.mem_append_left _ hj, hcore⟩

/-! ### What the others may do -/

/-- How the tables move on: invites are created and closed, users and drives stay. -/
structure DirEvolves (toLowerCase : Text → Text) (s t : Directory) : Prop where
  sound : InvitesSound toLowerCase t.invites
  persist : InvitesPersist s.invites t.invites
  users : t.users = s.users
  drives : t.drives = s.drives

theorem DirEvolves.trans {toLowerCase : Text → Text} {s t u : Directory}
    (hst : DirEvolves toLowerCase s t) (htu : DirEvolves toLowerCase t u) :
  DirEvolves toLowerCase s u
  where
    sound := htu.sound
    persist := hst.persist.trans htu.persist
    users := htu.users.trans hst.users
    drives := htu.drives.trans hst.drives

theorem DirEvolves.refl {toLowerCase : Text → Text} {s : Directory}
    (h : InvitesSound toLowerCase s.invites) :
  DirEvolves toLowerCase s s
  := ⟨h, .refl _, rfl, rfl⟩

/-- The token was accepted or revoked. -/
def TokenClosed (sha256 : Text → Text) (token : Text) (db : Directory) : Prop :=
  ∃ i ∈ db.invites, i.tokenHash = sha256 token ∧ ¬ i.Open

/-- A closed token stays closed. -/
theorem TokenClosed.persist {sha256 : Text → Text} {token : Text} {db db' : Directory}
    (h : TokenClosed sha256 token db) (hpersist : InvitesPersist db.invites db'.invites) :
  TokenClosed sha256 token db'
  := by
  obtain ⟨i, hi, hhash, hclosed⟩ := h
  obtain ⟨j, hj, -, hopen | rfl⟩ := hpersist i hi
  · exact absurd hopen hclosed
  · exact ⟨j, hj, hhash, hclosed⟩

theorem pendingInvite_eq {toLowerCase sha256 : Text → Text} {token : Text} {db : Directory}
    {row : InviteRow} (h : InvitesSound toLowerCase db.invites) (hrow : row ∈ db.invites)
    (hhash : row.tokenHash = sha256 token) (hopen : row.Open) :
  db.pendingInvite sha256 token = some row
  := by
  unfold Directory.pendingInvite
  cases hfind : db.invites.find? (fun i => i.tokenHash = sha256 token ∧ i.Open) with
  | none =>
      have hnone := List.find?_eq_none.mp hfind row hrow
      exact absurd (decide_eq_true ⟨hhash, hopen⟩) hnone
  | some i =>
      have hi := List.find?_some hfind
      rw [decide_eq_true_iff] at hi
      rw [h.tokenKey.eq_of_mem (List.mem_of_find?_eq_some hfind) hrow (hi.1.trans hhash.symm)]

/-- A closed token has no open invite. -/
theorem TokenClosed.pendingInvite {toLowerCase sha256 : Text → Text} {token : Text}
    {db : Directory} (h : TokenClosed sha256 token db)
    (hsound : InvitesSound toLowerCase db.invites) :
  db.pendingInvite sha256 token = none
  := by
  obtain ⟨i, hi, hhash, hclosed⟩ := h
  apply List.find?_eq_none.mpr
  intro j hj hsame
  rw [decide_eq_true_iff] at hsame
  obtain rfl := hsound.tokenKey.eq_of_mem hi hj (hhash.trans hsame.1.symm)
  exact hclosed hsame.2

/-! ### What a request grants -/

/-- The step granted roles. -/
def DirAction.Grants : DirAction → Prop
  | .granted _ _ _ => True
  | .driveGranted _ _ _ => True
  | _ => False

instance : (action : DirAction) → Decidable action.Grants
  | .granted _ _ _ => isTrue trivial
  | .driveGranted _ _ _ => isTrue trivial
  | .quiet => isFalse id
  | .sawDrives _ _ => isFalse id
  | .orgInserted _ => isFalse id
  | .orgFounded _ _ => isFalse id
  | .driveInserted _ _ => isFalse id
  | .driveFounded _ _ _ => isFalse id
  | .createFailed => isFalse id
  | .invited _ => isFalse id
  | .inviteRevoked _ => isFalse id
  | .orgRoleSet _ _ _ => isFalse id
  | .orgMemberRemoved _ _ => isFalse id
  | .driveRoleSet _ _ => isFalse id
  | .driveMemberRemoved _ _ => isFalse id

/-- Grant one role after the other. -/
def grantAll (grants : List Member) (members : List Member) : List Member :=
  grants.foldl (fun members g => grantRole g.scopeId g.userId g.role members) members

/-- Roles in an org and on its drives. -/
structure InviteGrants where
  org : List Member
  drives : List Member
  deriving DecidableEq, Repr

def InviteGrants.none : InviteGrants := ⟨[], []⟩

/-- The grants that an invite to the org means. -/
def Directory.inviteGrants (db : Directory) (orgId : Text) (role : Role) :
    Option (List DriveGrant) → List DriveGrant
  | .none =>
      match db.drives.find? (fun d => d.orgId = orgId ∧ d.isDefault = true) with
      | some d => [⟨d.id, role⟩]
      | .none => []
  | some drives => dedupeGrants drives

/-- The roles of a user on drives. -/
def driveRoles (userId : Text) (grants : List DriveGrant) : List Member :=
  grants.map (fun g => ⟨g.driveId, userId, g.role⟩)

/-- The roles that an invite promises the user, on the drives that are there. -/
def Directory.promised (db : Directory) (row : InviteRow) (userId : Text) : InviteGrants where
  org := [⟨row.orgId, userId, row.orgRole⟩]
  drives := driveRoles userId (row.drives.filter (fun g => g.driveId ∈ db.orgDrives row.orgId))

/-- The account that `addDriveMember` finds. -/
def Directory.accountUser (db : Directory) (lower : Text → Text) : AccountRef → Option UserRow
  | .userId userId => db.users.find? (fun u => u.id = userId)
  | .email email =>
      match lookupEmail lower email db.users with
      | .found user => some user
      | _ => none

/-- The roles that a request grants when it grants any. -/
def InviteRequest.grants (lower sha256 : Text → Text) (db : Directory) :
    InviteRequest → InviteGrants
  | .createPendingInvite _ _ _ _ _ => .none
  | .revokeInvite _ _ => .none
  | .acceptInvite token userId =>
      match db.pendingInvite sha256 token with
      | some row => db.promised row userId
      | none => .none
  | .inviteToOrg params =>
      match lookupEmail lower params.email db.users with
      | .found user =>
          ⟨[⟨params.orgId, user.id, params.role⟩],
            driveRoles user.id (db.inviteGrants params.orgId params.role params.drives)⟩
      | _ => .none
  | .addDriveMember _ driveId role account =>
      match db.accountUser lower account with
      | some user => ⟨[], [⟨driveId, user.id, role⟩]⟩
      | none => .none

section

variable (toLowerCase lower sha256 : Text → Text)

/-- What every statement of a request does.  It is the first that writes; it changes the
members only by granting the roles of the request; and when the request is an accept and it
writes, it closes the token, which was open. -/
structure InviteRequest.Does (request : InviteRequest) (h : List DirAction) (db : Directory)
    (r : DirAction × Directory) : Prop where
  clean : NoWrites h
  invites : InvitesStep toLowerCase db.invites r.2.invites
  users : r.2.users = db.users
  drives : r.2.drives = db.drives
  orgMembers : r.2.orgMembers =
    if r.1.Grants then grantAll (request.grants lower sha256 db).org db.orgMembers
    else db.orgMembers
  driveMembers : r.2.driveMembers =
    if r.1.Grants then grantAll (request.grants lower sha256 db).drives db.driveMembers
    else db.driveMembers
  accepts : ∀ token userId, request = .acceptInvite token userId → ¬ r.1.Reads →
    db.pendingInvite sha256 token ≠ none ∧ TokenClosed sha256 token r.2

/-- The judgement of a part of a request. -/
abbrev DirOp.Relies {α : Type} (request : InviteRequest) (op : DirOp α)
    (Q : List DirAction → Directory → α → Prop) (h : List DirAction) (s : Directory) : Prop :=
  Fallible.Relies (DirEvolves toLowerCase) (request.Does toLowerCase lower sha256) Q
    (fun _ _ => True) op h s

end

section

variable {toLowerCase lower sha256 : Text → Text} {request : InviteRequest}
  {h : List DirAction} {s : Directory} {α β : Type}

theorem DirAction.Reads.not_grants {action : DirAction} (h : action.Reads) :
  ¬ action.Grants
  := by
  cases action with
  | quiet => exact id
  | sawDrives orgId driveIds => exact id
  | _ => cases h

/-- A statement that reads. -/
theorem InviteRequest.does_read {action : DirAction} (hclean : NoWrites h)
    (haction : action.Reads) (db : Directory) :
  request.Does toLowerCase lower sha256 h db (action, db)
  where
    clean := hclean
    invites := .refl _ _
    users := rfl
    drives := rfl
    orgMembers := (if_neg haction.not_grants).symm
    driveMembers := (if_neg haction.not_grants).symm
    accepts := fun _ _ _ hwrites => absurd haction hwrites

/-- What a request has read since the state `s`. -/
def HasLookedUp (toLowerCase : Text → Text) (s : Directory) (Q : Directory → α → Prop)
    (h : List DirAction) (t : Directory) (a : α) : Prop :=
  NoWrites h ∧ DirEvolves toLowerCase s t ∧ Q t a

/-- A statement that changes nothing. -/
theorem statement_relies {f : Directory → DirInput → Except IdentityError (Effect α)}
    {Q : Directory → α → Prop} (hclean : NoWrites h)
    (hf : ∀ {db x e}, f db x = .ok e → e.2.1.Reads ∧ e.2.2 = db ∧ Q db e.1) :
  (statement .quiet f).Relies toLowerCase lower sha256 request (HasLookedUp toLowerCase s Q) h s
  := by
  apply Fallible.Relies.atomic
  intro t ht x
  split
  · have hquiet : DirAction.Reads .quiet := trivial
    exact ⟨InviteRequest.does_read hclean hquiet t, trivial⟩
  · rename_i a action db' hok
    split at hok
    · cases hok
    · obtain ⟨hreads, rfl, hQ⟩ := hf hok
      exact ⟨InviteRequest.does_read hclean hreads _, hclean.cons hreads, ht, hQ⟩

theorem select_relies {f : Directory → DirInput → Except IdentityError α} (hclean : NoWrites h) :
  (select f).Relies toLowerCase lower sha256 request
    (HasLookedUp toLowerCase s (fun t a => ∃ x, f t x = .ok a)) h s
  := by
  apply statement_relies hclean
  intro db x e hok
  obtain ⟨a, hread, hpure⟩ := bind_eq_ok_iff.mp hok
  cases hpure
  exact ⟨trivial, rfl, x, hread⟩

/-- Reading first, and then more from what was read. -/
theorem HasLookedUp.trans {Q : Directory → α → Prop} {t u : Directory} {h' : List DirAction} {a : α}
    (hst : DirEvolves toLowerCase s t) (hread : HasLookedUp toLowerCase t Q h' u a) :
  HasLookedUp toLowerCase s Q h' u a
  := ⟨hread.1, hst.trans hread.2.1, hread.2.2⟩

theorem resolveUserByEmail_relies (email : Text) (hclean : NoWrites h) :
  (resolveUserByEmail lower email).Relies toLowerCase lower sha256 request
    (HasLookedUp toLowerCase s (fun t lookup => lookup = lookupEmail lower email t.users)) h s
  := by
  apply (select_relies hclean).bind
  rintro h' t exact ⟨hclean, hst, x, hexact⟩
  have hexact : t.users.find? (fun u => u.email = trim email) = exact := Except.ok.inj hexact
  cases exact with
  | some user =>
      have hlookup : lookupEmail lower email t.users = .found user := by
        unfold lookupEmail
        rw [hexact]
      exact ⟨hclean, hst, hlookup.symm⟩
  | none =>
      apply (select_relies hclean).bind
      rintro h' u candidates ⟨hclean, htu, x, hcandidates⟩
      have hcandidates : u.users.filter (fun u => lower u.email = lower (trim email)) =
          candidates := Except.ok.inj hcandidates
      have hnone : u.users.find? (fun u => u.email = trim email) = none := by
        rw [htu.users, hexact]
      match candidates, hcandidates with
      | [], hcandidates =>
          have hlookup : lookupEmail lower email u.users = .none := by
            simp only [lookupEmail, hnone, hcandidates]
          exact ⟨hclean, hst.trans htu, hlookup.symm⟩
      | [user], hcandidates =>
          have hlookup : lookupEmail lower email u.users = .found user := by
            simp only [lookupEmail, hnone, hcandidates]
          exact ⟨hclean, hst.trans htu, hlookup.symm⟩
      | first :: second :: rest, hcandidates =>
          have hlookup : lookupEmail lower email u.users =
              .ambiguous (first :: second :: rest) := by
            simp only [lookupEmail, hnone, hcandidates]
          exact ⟨hclean, hst.trans htu, hlookup.symm⟩

theorem assertDriveInOrg_relies (driveId orgId : Text) (hclean : NoWrites h) :
  (assertDriveInOrg driveId orgId).Relies toLowerCase lower sha256 request
    (HasLookedUp toLowerCase s (fun _ _ => True)) h s
  := by
  apply statement_relies hclean
  intro db x e hok
  split at hok
  · split at hok
    · cases hok
      exact ⟨trivial, rfl, trivial⟩
    · cases hok
  · cases hok

theorem assertDrivesInOrg_relies (orgId : Text) (grants : List DriveGrant) (hclean : NoWrites h)
    (hs : InvitesSound toLowerCase s.invites) :
  (assertDrivesInOrg orgId grants).Relies toLowerCase lower sha256 request
    (HasLookedUp toLowerCase s (fun _ _ => True)) h s
  := by
  induction grants generalizing h s with
  | nil => exact ⟨hclean, .refl hs, trivial⟩
  | cons grant grants ih =>
      apply (assertDriveInOrg_relies _ _ hclean).bind
      rintro h' t _ ⟨hclean, hst, -⟩
      apply (ih hclean hst.sound).mono
      intro h'' u _ hread
      exact hread.trans hst

theorem resolveInviteGrants_relies (orgId : Text) (role : Role)
    (drives : Option (List DriveGrant)) (hclean : NoWrites h)
    (hs : InvitesSound toLowerCase s.invites) :
  (resolveInviteGrants orgId role drives).Relies toLowerCase lower sha256 request
    (HasLookedUp toLowerCase s (fun t grants => grants = t.inviteGrants orgId role drives)) h s
  := by
  cases drives with
  | none =>
      apply statement_relies hclean
      intro db x e hok
      unfold Directory.inviteGrants
      cases hfind : db.drives.find? (fun d => d.orgId = orgId ∧ d.isDefault = true) with
      | some d =>
          rw [hfind] at hok
          cases hok
          exact ⟨trivial, rfl, rfl⟩
      | none =>
          rw [hfind] at hok
          cases hok
          exact ⟨trivial, rfl, rfl⟩
  | some drives =>
      apply (assertDrivesInOrg_relies orgId drives hclean hs).bind
      rintro h' t _ ⟨hclean, hst, -⟩
      exact ⟨hclean, hst, rfl⟩

theorem filterOrgMembers_relies (orgId : Text) (users : List UserRow) (hclean : NoWrites h)
    (hs : InvitesSound toLowerCase s.invites) :
  (filterOrgMembers orgId users).Relies toLowerCase lower sha256 request
    (HasLookedUp toLowerCase s (fun _ _ => True)) h s
  := by
  induction users generalizing h s with
  | nil => exact ⟨hclean, .refl hs, trivial⟩
  | cons user users ih =>
      apply (select_relies hclean).bind
      rintro h' t _ ⟨hclean, hst, -⟩
      apply (ih hclean hst.sound).bind
      rintro h'' u _ ⟨hclean, htu, -⟩
      exact ⟨hclean, hst.trans htu, trivial⟩

theorem resolveAccount_relies (orgId : Text) (account : AccountRef) (hclean : NoWrites h) :
  (resolveAccount lower orgId account).Relies toLowerCase lower sha256 request
    (HasLookedUp toLowerCase s (fun t user => user = t.accountUser lower account)) h s
  := by
  cases account with
  | userId userId =>
      apply (select_relies hclean).mono
      rintro h' t user ⟨hclean, hst, x, huser⟩
      exact ⟨hclean, hst, (Except.ok.inj huser).symm⟩
  | email email =>
      apply (resolveUserByEmail_relies email hclean).bind
      rintro h' t lookup ⟨hclean, hst, rfl⟩
      cases hlookup : lookupEmail lower email t.users with
      | found user =>
          refine ⟨hclean, hst, ?_⟩
          simp only [Directory.accountUser, hlookup]
      | none =>
          refine ⟨hclean, hst, ?_⟩
          simp only [Directory.accountUser, hlookup]
      | ambiguous candidates =>
          apply (filterOrgMembers_relies _ _ hclean hst.sound).bind
          rintro h' u members ⟨hclean, htu, -⟩
          split
          · trivial
          · refine ⟨hclean, hst.trans htu, ?_⟩
            simp only [Directory.accountUser, htu.users, hlookup]

/-! ### What the requests do -/

/-- The operation has written. -/
def HasSaved (h : List DirAction) (_ : Directory) (_ : α) : Prop := ¬ NoWrites h

/-- A statement that writes, the last one of its request. -/
theorem write_relies {f : Directory → DirInput → Except IdentityError (Effect α)}
    (hclean : NoWrites h)
    (hf : ∀ {t x e}, DirEvolves toLowerCase s t → f t x = .ok e →
      request.Does toLowerCase lower sha256 h t e.2 ∧ ¬ e.2.1.Reads) :
  (statement .quiet f).Relies toLowerCase lower sha256 request HasSaved h s
  := by
  apply Fallible.Relies.atomic
  intro t ht x
  split
  · have hquiet : DirAction.Reads .quiet := trivial
    exact ⟨InviteRequest.does_read hclean hquiet t, trivial⟩
  · rename_i a action db' hok
    split at hok
    · cases hok
    · obtain ⟨hdoes, hwrites⟩ := hf ht hok
      exact ⟨hdoes, fun hclean => hwrites (hclean action List.mem_cons_self)⟩

theorem closes_revokeOpen (orgId email : Text) (now : Nat) :
  Closes (fun i =>
    if i.orgId = orgId ∧ i.email = normalizeInviteEmail toLowerCase email ∧ i.Open then
      { i with revokedAt := some (storedTime now) }
    else i)
  := by
  apply closes_of (g := fun i => { i with revokedAt := some (storedTime now) }) (fun _ => rfl)
  · intro i hi
    exact hi.2.2
  · intro i
    rfl
  · rintro i ⟨-, hrevoked⟩
    cases hrevoked

theorem createPendingInvite_relies {orgId email : Text} {role : Role} {drives : List DriveGrant}
    {invitedBy : Text} (hclean : NoWrites h)
    (hkind : ∀ token userId, request ≠ .acceptInvite token userId) :
  (createPendingInvite toLowerCase sha256 orgId email role drives invitedBy).Relies
    toLowerCase lower sha256 request HasSaved h s
  := by
  apply write_relies hclean
  intro t x e ht hok
  dsimp only at hok
  split at hok
  · cases hok
  · rename_i hfresh
    cases hok
    constructor
    · constructor
      · exact hclean
      · apply InvitesStep.created (closes_revokeOpen orgId _ x.now) _ email rfl
        intro i hi
        refine ⟨?_, ?_, ?_⟩
        · intro hid
          exact hfresh ⟨i, hi, .inl hid⟩
        · intro hhash
          exact hfresh ⟨i, hi, .inr (.inl hhash)⟩
        · rintro ⟨hopen, hslot⟩
          obtain ⟨horg, hemail⟩ := Prod.mk.inj hslot
          exact hfresh ⟨i, hi, .inr (.inr ⟨horg, hemail, hopen⟩)⟩
      · rfl
      · rfl
      · rfl
      · rfl
      · intro token userId hrequest
        exact absurd hrequest (hkind token userId)
    · exact id

theorem revokeInvite_relies (orgId inviteId : Text) (hclean : NoWrites h)
    (hkind : ∀ token userId, request ≠ .acceptInvite token userId) :
  (revokeInvite orgId inviteId).Relies toLowerCase lower sha256 request HasSaved h s
  := by
  apply write_relies hclean
  intro t x e ht hok
  split at hok
  · cases hok
    constructor
    · constructor
      · exact hclean
      · apply InvitesStep.closed
        apply closes_of (g := fun i => { i with revokedAt := some (storedTime x.now) })
          (fun _ => rfl)
        · intro i hi
          exact hi.2.2
        · intro i
          rfl
        · rintro i ⟨-, hrevoked⟩
          cases hrevoked
      · rfl
      · rfl
      · rfl
      · rfl
      · intro token userId hrequest
        exact absurd hrequest (hkind token userId)
    · exact id
  · cases hok

theorem grantAll_driveRoles (userId : Text) (grants : List DriveGrant) (members : List Member) :
  grantAll (driveRoles userId grants) members =
    grants.foldl (fun members g => grantRole g.driveId userId g.role members) members
  := by
  unfold grantAll driveRoles
  rw [List.foldl_map]

theorem grantInvite_relies {params : InviteParams} {user : UserRow} {grants : List DriveGrant}
    (hclean : NoWrites h)
    (hkind : ∀ token userId, request ≠ .acceptInvite token userId)
    (hgrants : ∀ t, DirEvolves toLowerCase s t → request.grants lower sha256 t =
      ⟨[⟨params.orgId, user.id, params.role⟩], driveRoles user.id grants⟩) :
  (grantInvite toLowerCase params user grants).Relies toLowerCase lower sha256 request
    HasSaved h s
  := by
  apply write_relies hclean
  intro t x e ht hok
  obtain ⟨⟨role, db₁⟩, horg, hok⟩ := bind_eq_ok_iff.mp hok
  obtain ⟨⟨held, db₂⟩, hdrives, hok⟩ := bind_eq_ok_iff.mp hok
  cases hok
  rw [grantDriveRoles_eq hdrives, grantOrgRole_eq horg]
  constructor
  · constructor
    · exact hclean
    · exact .closed (closes_revokeOpen params.orgId user.email x.now)
    · rfl
    · rfl
    · rw [hgrants t ht]
      rfl
    · rw [hgrants t ht]
      exact (grantAll_driveRoles user.id grants t.driveMembers).symm
    · intro token userId hrequest
      exact absurd hrequest (hkind token userId)
  · exact id

theorem inviteToOrg_relies (params : InviteParams) (hclean : NoWrites h) :
  (inviteToOrg toLowerCase lower sha256 params).Relies toLowerCase lower sha256
    (.inviteToOrg params) HasSaved h s
  := by
  have hkind : ∀ token userId, InviteRequest.inviteToOrg params ≠ .acceptInvite token userId := by
    intro token userId heq
    cases heq
  apply (resolveUserByEmail_relies params.email hclean).bind
  rintro h' t lookup ⟨hclean, hst, hlookup⟩
  cases lookup with
  | ambiguous candidates => trivial
  | none =>
      dsimp only
      split
      · trivial
      · apply (resolveInviteGrants_relies _ _ _ hclean hst.sound).bind
        rintro h'' u grants ⟨hclean, -, -⟩
        exact createPendingInvite_relies hclean hkind
  | found user =>
      apply (resolveInviteGrants_relies _ _ _ hclean hst.sound).bind
      rintro h' u grants ⟨hclean, htu, hgrants⟩
      apply (select_relies hclean).bind
      rintro h' v orgRole ⟨hclean, huv, -⟩
      split
      · exact createPendingInvite_relies hclean hkind
      · apply grantInvite_relies hclean hkind
        intro w hvw
        have huw := huv.trans hvw
        have hfound : lookupEmail lower params.email w.users = .found user := by
          rw [huw.users, htu.users, ← hlookup]
        have hsame : w.inviteGrants params.orgId params.role params.drives = grants := by
          rw [hgrants]
          unfold Directory.inviteGrants
          rw [huw.drives]
        simp only [InviteRequest.grants, hfound, hsame]

theorem addDriveMember_relies (orgId driveId : Text) (role : Role) (account : AccountRef)
    (hclean : NoWrites h) :
  (addDriveMember lower orgId driveId role account).Relies toLowerCase lower sha256
    (.addDriveMember orgId driveId role account) HasSaved h s
  := by
  apply (assertDriveInOrg_relies _ _ hclean).bind
  rintro h' t _ ⟨hclean, -, -⟩
  apply (resolveAccount_relies _ _ hclean).bind
  rintro h' u user ⟨hclean, -, huser⟩
  cases user with
  | none => trivial
  | some user =>
      apply (select_relies hclean).bind
      rintro h' v orgRole ⟨hclean, huv, -⟩
      cases orgRole with
      | none => trivial
      | some _ =>
          apply write_relies hclean
          intro w x e hvw hok
          obtain ⟨⟨⟨held, created⟩, db'⟩, hgrant, hok⟩ := bind_eq_ok_iff.mp hok
          cases hok
          rw [grantDriveRole_eq hgrant]
          have hgrants : InviteRequest.grants lower sha256 w
              (.addDriveMember orgId driveId role account) =
              ⟨[], [⟨driveId, user.id, role⟩]⟩ := by
            have haccount : w.accountUser lower account = some user := by
              rw [huser]
              unfold Directory.accountUser
              rw [(huv.trans hvw).users]
            simp only [InviteRequest.grants, haccount]
          constructor
          · constructor
            · exact hclean
            · exact .refl _ _
            · rfl
            · rfl
            · rw [hgrants]
              rfl
            · rw [hgrants]
              rfl
            · intro token userId hrequest
              cases hrequest
          · exact id

theorem getInviteByToken_relies (token : Text) (hclean : NoWrites h)
    (hs : InvitesSound toLowerCase s.invites) :
  (getInviteByToken sha256 token).Relies toLowerCase lower sha256 request
    (HasLookedUp toLowerCase s (fun t invite => ∀ i ∈ invite, t.pendingInvite sha256 token = some i))
    h s
  := by
  unfold getInviteByToken
  split
  · apply (select_relies hclean).mono
    rintro h' t invite ⟨hclean, hst, x, hread⟩
    refine ⟨hclean, hst, ?_⟩
    rintro i hi
    obtain rfl := Except.ok.inj hread
    exact (Option.filter_eq_some_iff.mp hi).1
  · refine ⟨hclean, .refl hs, ?_⟩
    intro i hi
    cases hi

/-- An open invite that was read earlier is, while it is open, the invite of its token. -/
theorem pendingInvite_of_evolves {token : Text} {t : Directory} {invite : InviteRow}
    (hinvite : s.pendingInvite sha256 token = some invite) (hst : DirEvolves toLowerCase s t)
    (hopen : ∃ i ∈ t.invites, i.id = invite.id ∧ i.Open) :
  ∃ row ∈ t.invites, row.core = invite.core ∧ row.Open ∧ row.tokenHash = sha256 token ∧
    t.pendingInvite sha256 token = some row
  := by
  have hhash := List.find?_some hinvite
  rw [decide_eq_true_iff] at hhash
  obtain ⟨row, hrow, hcore, -⟩ := hst.persist invite (List.mem_of_find?_eq_some hinvite)
  obtain ⟨i, hi, hid, hiopen⟩ := hopen
  have hrowId : row.id = invite.id := by
    show row.core.id = invite.core.id
    rw [hcore]
  obtain rfl := hst.sound.idKey.eq_of_mem hi hrow (hid.trans hrowId.symm)
  have hrowHash : i.tokenHash = sha256 token := by
    show i.core.tokenHash = _
    rw [hcore]
    exact hhash.1
  exact ⟨i, hrow, hcore, hiopen, hrowHash, pendingInvite_eq hst.sound hrow hrowHash hiopen⟩

/-- Consuming an invite. -/
def consume (id userId : Text) (now : Nat) (i : InviteRow) : InviteRow :=
  if i.id = id ∧ i.Open then
    { i with acceptedAt := some (storedTime now), acceptedBy := some userId }
  else i

theorem closes_consume (id userId : Text) (now : Nat) :
  Closes (consume id userId now)
  := by
  apply closes_of
    (g := fun i => { i with acceptedAt := some (storedTime now), acceptedBy := some userId })
    (fun _ => rfl)
  · intro i hi
    exact hi.2
  · intro i
    rfl
  · rintro i ⟨haccepted, -⟩
    cases haccepted

/-- Consuming an open invite closes its token. -/
theorem tokenClosed_consume {token : Text} {db : Directory} {row : InviteRow} {userId : Text}
    {now : Nat} (hrow : row ∈ db.invites) (hopen : row.Open)
    (hhash : row.tokenHash = sha256 token) (db' : Directory)
    (hdb' : db'.invites = db.invites.map (consume row.id userId now)) :
  TokenClosed sha256 token db'
  := by
  refine ⟨consume row.id userId now row, ?_, ?_, ?_⟩
  · rw [hdb']
    exact List.mem_map_of_mem hrow
  · show (consume row.id userId now row).core.tokenHash = _
    rw [(closes_consume row.id userId now).core]
    exact hhash
  · unfold consume
    rw [if_pos ⟨rfl, hopen⟩]
    rintro ⟨haccepted, -⟩
    cases haccepted

theorem acceptInvite_relies (token userId : Text) (hclean : NoWrites h)
    (hs : InvitesSound toLowerCase s.invites) :
  (acceptInvite lower sha256 token userId).Relies toLowerCase lower sha256
    (.acceptInvite token userId) HasSaved h s
  := by
  apply (getInviteByToken_relies token hclean hs).bind
  rintro h' t invite ⟨hclean, -, hinvite⟩
  cases invite with
  | none => trivial
  | some invite =>
      have hinvite := hinvite invite rfl
      apply (resolveUserByEmail_relies invite.email hclean).bind
      rintro h' u lookup ⟨hclean, htu, -⟩
      cases lookup with
      | ambiguous candidates => trivial
      | none => trivial
      | found user =>
          dsimp only
          split
          · trivial
          · have hexisting : DirOp.Relies toLowerCase lower sha256 (.acceptInvite token userId)
                (statement .quiet fun db _ =>
                  .ok ((db.drives.filter (fun d => d.orgId = invite.orgId)).map (·.id),
                    .sawDrives invite.orgId
                      ((db.drives.filter (fun d => d.orgId = invite.orgId)).map (·.id)), db))
                (HasLookedUp toLowerCase u (fun v existing => existing = v.orgDrives invite.orgId))
                h' u := by
              apply statement_relies hclean
              intro db x e hok
              cases hok
              exact ⟨trivial, rfl, rfl⟩
            apply hexisting.bind
            rintro h' v existing ⟨hclean, huv, hexisting⟩
            apply write_relies hclean
            intro w x e hvw hok
            split at hok
            · rename_i hopen
              have htw := htu.trans (huv.trans hvw)
              obtain ⟨row, hrow, hcore, hrowopen, hhash, hpending⟩ :=
                pendingInvite_of_evolves hinvite htw hopen
              obtain ⟨⟨role, db₁⟩, horg, hok⟩ := bind_eq_ok_iff.mp hok
              obtain ⟨⟨held, db₂⟩, hdrives, hok⟩ := bind_eq_ok_iff.mp hok
              cases hok
              rw [grantDriveRoles_eq hdrives, grantOrgRole_eq horg]
              have hrowId : row.id = invite.id := by
                show row.core.id = invite.core.id
                rw [hcore]
              have hgrants : InviteRequest.grants lower sha256 w (.acceptInvite token userId) =
                  w.promised invite userId := by
                have hsame : w.promised row userId = w.promised row.core userId := rfl
                simp only [InviteRequest.grants, hpending]
                rw [hsame, hcore]
                rfl
              have hseen : existing = w.orgDrives invite.orgId := by
                rw [hexisting]
                unfold Directory.orgDrives
                rw [hvw.drives]
              constructor
              · constructor
                · exact hclean
                · exact .closed (closes_consume invite.id userId x.now)
                · rfl
                · rfl
                · rw [hgrants]
                  rfl
                · rw [hgrants, hseen]
                  exact (grantAll_driveRoles userId _ _).symm
                · rintro _ _ ⟨⟩ -
                  constructor
                  · rw [hpending]
                    exact Option.some_ne_none row
                  · apply tokenClosed_consume hrow hrowopen hhash
                    rw [hrowId]
                    rfl
              · exact id
            · cases hok

end

section

variable (toLowerCase lower sha256 : Text → Text)

/-- Every request does what a request does, and has written when it succeeds. -/
theorem InviteRequest.program_relies (request : InviteRequest) {s : Directory}
    (hs : InvitesSound toLowerCase s.invites) :
  (request.program toLowerCase lower sha256).Relies toLowerCase lower sha256 request
    HasSaved [] s
  := by
  have hclean : NoWrites [] := by
    intro a ha
    cases ha
  cases request with
  | createPendingInvite orgId email role drives invitedBy =>
      apply createPendingInvite_relies hclean
      intro token userId heq
      cases heq
  | acceptInvite token userId => exact acceptInvite_relies token userId hclean hs
  | revokeInvite orgId inviteId =>
      apply revokeInvite_relies orgId inviteId hclean
      intro token userId heq
      cases heq
  | inviteToOrg params => exact inviteToOrg_relies params hclean
  | addDriveMember orgId driveId role account =>
      exact addDriveMember_relies orgId driveId role account hclean

end

end AgentFs

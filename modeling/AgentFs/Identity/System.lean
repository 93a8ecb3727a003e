import AgentFs.Identity.Directory

/-!
# Runs of the identity operations

The requests to the identity operations and the pool they run in.  `DirStep` says all that
one segment of any of them can do to the tables; the results about runs rest on it and unfold
no operation.
-/

namespace AgentFs

open Async

/-- A request to the identity operations. -/
inductive DirRequest where
  | createOrg (name userId : Text) (isPersonal : Bool)
  | createDrive (orgId name : Text) (creatorUserId : Option Text)
  | inviteToOrg (params : InviteParams)
  | acceptInvite (token userId : Text)
  | addDriveMember (orgId driveId : Text) (role : Role) (account : AccountRef)
  | updateOrgMemberRole (orgId userId : Text) (role : Role)
  | removeOrgMember (orgId userId : Text)
  | updateDriveMemberRole (driveId userId : Text) (role : Role)
  | removeDriveMember (driveId userId : Text)
  deriving DecidableEq, Repr

section

variable (toLowerCase lower sha256 : Text → Text)

/-- The program of a request. -/
def DirRequest.program : DirRequest → DirOp DirAnswer
  | .createOrg name userId isPersonal => AgentFs.createOrg name userId isPersonal
  | .createDrive orgId name creatorUserId => do
      let id ← AgentFs.createDrive .quiet orgId name false creatorUserId
      pure (.drive id name)
  | .inviteToOrg params => AgentFs.inviteToOrg toLowerCase lower sha256 params
  | .acceptInvite token userId => AgentFs.acceptInvite lower sha256 token userId
  | .addDriveMember orgId driveId role account =>
      AgentFs.addDriveMember lower orgId driveId role account
  | .updateOrgMemberRole orgId userId role => AgentFs.updateOrgMemberRole orgId userId role
  | .removeOrgMember orgId userId => AgentFs.removeOrgMember orgId userId
  | .updateDriveMemberRole driveId userId role => do
      AgentFs.updateDriveMemberRole driveId userId role
      pure .done
  | .removeDriveMember driveId userId => do
      AgentFs.removeDriveMember driveId userId
      pure .done

/-- The requests that the processes on one database have received. -/
def dirPool (db : Directory) (requests : List DirRequest) :
    Pool Directory DirInput DirAction (Except IdentityError DirAnswer) where
  conf := ⟨db, []⟩
  procs := requests.map (fun r => (r.program toLowerCase lower sha256).run)

end

/-- The configuration of the identity operations. -/
abbrev DirConfig := Conf Directory DirAction

/-! ### What a step does -/

/-- The drives of an org. -/
def Directory.orgDrives (db : Directory) (orgId : Text) : List Text :=
  (db.drives.filter (fun d => d.orgId = orgId)).map (·.id)

/-- What one segment can do: the action it reports, and the tables it leaves. -/
inductive DirStep (db : Directory) : DirAction → Directory → Prop where
  | quiet : DirStep db .quiet db
  | createFailed : DirStep db .createFailed db
  | sawDrives (orgId : Text) (driveIds : List Text)
      (seen : ∀ id ∈ driveIds, ∃ d ∈ db.drives, d.id = id ∧ d.orgId = orgId) :
      DirStep db (.sawDrives orgId driveIds) db
  | orgInserted (row : OrgRow) :
      DirStep db (.orgInserted row.id) { db with orgs := db.orgs ++ [row] }
  | orgFounded (orgId userId : Text) (fresh : ¬ IsMember db.orgMembers orgId userId) :
      DirStep db (.orgFounded orgId userId)
        { db with orgMembers := db.orgMembers ++ [⟨orgId, userId, .admin⟩] }
  | driveInserted (row : DriveRow) (fresh : ∀ d ∈ db.drives, d.id ≠ row.id) :
      DirStep db (.driveInserted row.id row.orgId) { db with drives := db.drives ++ [row] }
  | driveFounded (driveId orgId userId : Text)
      (fresh : ¬ IsMember db.driveMembers driveId userId) :
      DirStep db (.driveFounded driveId orgId userId)
        { db with driveMembers := db.driveMembers ++ [⟨driveId, userId, .admin⟩] }
  | invited (orgId : Text) (invites : List InviteRow) :
      DirStep db (.invited orgId) { db with invites := invites }
  | granted (orgId userId : Text) (role : Role) (grants : List DriveGrant)
      (invites : List InviteRow) :
      DirStep db (.granted orgId userId grants)
        { db with
          orgMembers := grantRole orgId userId role db.orgMembers
          driveMembers := grants.foldl
            (fun members g => grantRole g.driveId userId g.role members) db.driveMembers
          invites := invites }
  | driveGranted (driveId orgId userId : Text) (role : Role) :
      DirStep db (.driveGranted driveId orgId userId)
        { db with driveMembers := grantRole driveId userId role db.driveMembers }
  | orgRoleSet (orgId userId : Text) (role : Role) (apiKeys : List ApiKeyRow) :
      DirStep db (.orgRoleSet orgId userId role)
        { db with orgMembers := setRole orgId userId role db.orgMembers, apiKeys := apiKeys }
  | orgMemberRemoved (orgId userId : Text) (apiKeys : List ApiKeyRow) (member : Member)
      (found : findMember db.orgMembers orgId userId = some member)
      (guard : ¬ (member.role = .admin ∧ (adminsOf db.orgMembers orgId).length ≤ 1))
      (notSole : findSoleAdminDrives userId (db.orgDrives orgId) db = []) :
      DirStep db (.orgMemberRemoved orgId userId)
        { db with
          orgMembers := removeMember orgId userId db.orgMembers
          driveMembers := (db.orgDrives orgId).foldl
            (fun members driveId => removeMember driveId userId members) db.driveMembers
          apiKeys := apiKeys }
  | driveRoleSet (driveId userId : Text) (role : Role) (member : Member)
      (found : findMember db.driveMembers driveId userId = some member)
      (notSole : member.role = .admin → role ≠ .admin →
        findSoleAdminDrives userId [driveId] db = []) :
      DirStep db (.driveRoleSet driveId userId)
        { db with driveMembers := setRole driveId userId role db.driveMembers }
  | driveMemberRemoved (driveId userId : Text) (member : Member)
      (found : findMember db.driveMembers driveId userId = some member)
      (notSole : member.role = .admin → findSoleAdminDrives userId [driveId] db = []) :
      DirStep db (.driveMemberRemoved driveId userId)
        { db with driveMembers := removeMember driveId userId db.driveMembers }

/-- Every segment of the program does one of the steps. -/
abbrev DirOp.Steps {α : Type} (op : DirOp α) : Prop :=
  op.run.Always (fun db r => DirStep db r.1 r.2)

/-! ### Statements -/

theorem statement_steps {α : Type} {failed : DirAction}
    {f : Directory → DirInput → Except IdentityError (Effect α)}
    (hfailed : ∀ db, DirStep db failed db)
    (h : ∀ {db x e}, f db x = .ok e → DirStep db e.2.1 e.2.2) :
  (statement failed f).Steps
  := by
  apply Fallible.always_atomic
  intro db x
  split
  · exact hfailed db
  · rename_i a action db' hok
    split at hok
    · cases hok
    · exact h hok

theorem transaction_steps {α : Type}
    {f : Directory → DirInput → Except IdentityError (Effect α)}
    (h : ∀ {db x e}, f db x = .ok e → DirStep db e.2.1 e.2.2) :
  (transaction f).Steps
  := statement_steps (fun _ => .quiet) h

theorem select_steps {α : Type} (f : Directory → DirInput → Except IdentityError α) :
  (select f).Steps
  := by
  apply statement_steps (fun _ => .quiet)
  intro db x e h
  obtain ⟨a, -, hpure⟩ := bind_eq_ok_iff.mp h
  cases hpure
  exact .quiet

/-! ### Statements alone -/

theorem statement_alone {α : Type} {failed : DirAction}
    {f : Directory → DirInput → Except IdentityError (Effect α)} {x : DirInput}
    (hx : x.fail = false) (db : Directory) :
  (statement failed f).run.alone x db =
    match f db x with
    | .error e => (.error e, db)
    | .ok (a, _, db') => (.ok a, db')
  := by
  unfold statement
  rw [Fallible.alone_atomic, hx]
  cases f db x with
  | error e => rfl
  | ok e => rfl

theorem select_alone {α : Type} {f : Directory → DirInput → Except IdentityError α}
    {x : DirInput} (hx : x.fail = false) {db : Directory} {a : α} (h : f db x = .ok a) :
  (select f).run.alone x db = (.ok a, db)
  := by
  unfold select
  rw [statement_alone hx, h]
  rfl

theorem statement_alone_ok {α : Type} {failed : DirAction}
    {f : Directory → DirInput → Except IdentityError (Effect α)} {x : DirInput}
    {db db' : Directory} {a : α} (h : (statement failed f).run.alone x db = (.ok a, db')) :
  x.fail = false ∧ ∃ action, f db x = .ok (a, action, db')
  := by
  cases hx : x.fail with
  | true =>
      unfold statement at h
      rw [Fallible.alone_atomic, hx] at h
      cases h
  | false =>
      rw [statement_alone hx] at h
      cases hf : f db x with
      | error e =>
          rw [hf] at h
          cases h
      | ok e =>
          obtain ⟨b, action, t⟩ := e
          rw [hf] at h
          cases h
          exact ⟨rfl, action, rfl⟩

theorem statement_alone_error {α : Type} {failed : DirAction}
    {f : Directory → DirInput → Except IdentityError (Effect α)} {x : DirInput}
    {db db' : Directory} {e : IdentityError}
    (h : (statement failed f).run.alone x db = (.error e, db')) :
  db' = db
  := by
  unfold statement at h
  rw [Fallible.alone_atomic] at h
  cases hf : (if x.fail then .error .sql else f db x) with
  | error e =>
      rw [hf] at h
      cases h
      rfl
  | ok e =>
      obtain ⟨a, action, t⟩ := e
      rw [hf] at h
      cases h

/-- A `SELECT` that succeeds has read the tables as they are. -/
theorem select_alone_ok {α : Type} {f : Directory → DirInput → Except IdentityError α}
    {x : DirInput} {db db' : Directory} {a : α} (h : (select f).run.alone x db = (.ok a, db')) :
  f db x = .ok a ∧ db' = db
  := by
  obtain ⟨-, action, h⟩ := statement_alone_ok h
  obtain ⟨b, hread, h⟩ := bind_eq_ok_iff.mp h
  cases h
  exact ⟨hread, rfl⟩

/-! ### The operations -/

theorem resolveUserByEmail_steps (lower : Text → Text) (email : Text) :
  (resolveUserByEmail lower email).Steps
  := by
  apply Fallible.always_bind (select_steps _)
  intro exact
  cases exact with
  | some user => exact Fallible.segments_pure _
  | none =>
      apply Fallible.always_bind (select_steps _)
      intro candidates
      match candidates with
      | [] => exact Fallible.segments_pure _
      | [user] => exact Fallible.segments_pure _
      | _ :: _ :: _ => exact Fallible.segments_pure _

theorem assertDriveInOrg_steps (driveId orgId : Text) :
  (assertDriveInOrg driveId orgId).Steps
  := by
  apply statement_steps (fun _ => .quiet)
  intro db x e h
  split at h
  · rename_i d hfind
    split at h
    · rename_i horg
      cases h
      apply DirStep.sawDrives
      intro id hid
      obtain rfl := List.mem_singleton.mp hid
      have hprop := List.find?_some hfind
      simp only [decide_eq_true_eq] at hprop
      exact ⟨d, List.mem_of_find?_eq_some hfind, hprop, horg⟩
    · cases h
  · cases h

theorem grantOrgRole_eq {orgId userId : Text} {role held : Role} {db db' : Directory}
    (h : grantOrgRole orgId userId role db = .ok (held, db')) :
  db' = { db with orgMembers := grantRole orgId userId role db.orgMembers }
  := by
  unfold grantOrgRole at h
  dsimp only at h
  split at h
  · cases h
    rfl
  · cases h

theorem grantDriveRole_eq {driveId userId : Text} {role : Role} {held : Role × Bool}
    {db db' : Directory} (h : grantDriveRole driveId userId role db = .ok (held, db')) :
  db' = { db with driveMembers := grantRole driveId userId role db.driveMembers }
  := by
  unfold grantDriveRole at h
  dsimp only at h
  split at h
  · cases h
    rfl
  · cases h

theorem grantDriveRoles_eq {userId : Text} {grants held : List DriveGrant} {db db' : Directory}
    (h : grantDriveRoles userId grants db = .ok (held, db')) :
  db' =
    { db with
      driveMembers := grants.foldl
        (fun members g => grantRole g.driveId userId g.role members) db.driveMembers }
  := by
  induction grants generalizing held db with
  | nil =>
      cases h
      rfl
  | cons grant grants ih =>
      obtain ⟨⟨⟨role, created⟩, db₁⟩, hone, h⟩ := bind_eq_ok_iff.mp h
      obtain ⟨⟨held', db₂⟩, hrest, h⟩ := bind_eq_ok_iff.mp h
      cases h
      rw [ih hrest, grantDriveRole_eq hone]
      rfl

theorem createDrive_steps {failed : DirAction} (hfailed : ∀ db, DirStep db failed db)
    (orgId name : Text) (isDefault : Bool) (creatorUserId : Option Text) :
  (createDrive failed orgId name isDefault creatorUserId).Steps
  := by
  apply Fallible.always_bind
  · apply statement_steps hfailed
    intro db x e h
    split at h
    · cases h
    · rename_i hfresh
      split at h
      · cases h
        exact .driveInserted ⟨x.uuid, orgId, name, isDefault⟩
          (fun d hd hid => hfresh ⟨d, hd, hid⟩)
      · cases h
  · intro id
    cases creatorUserId with
    | none => exact Fallible.segments_pure _
    | some userId =>
        apply statement_steps (fun _ => .createFailed)
        intro db x e h
        split at h
        · cases h
        · rename_i hfresh
          split at h
          · cases h
            exact .driveFounded id orgId userId hfresh
          · cases h

theorem createOrg_steps (name userId : Text) (isPersonal : Bool) :
  (createOrg name userId isPersonal).Steps
  := by
  apply Fallible.always_bind
  · apply statement_steps (fun _ => .quiet)
    intro db x e h
    split at h
    · cases h
    · cases h
      exact .orgInserted ⟨x.uuid, name, isPersonal⟩
  · intro id
    apply Fallible.always_bind
    · apply statement_steps (fun _ => .createFailed)
      intro db x e h
      split at h
      · cases h
      · rename_i hfresh
        split at h
        · cases h
          exact .orgFounded id userId hfresh
        · cases h
    · intro _
      apply Fallible.always_bind (createDrive_steps (fun _ => .createFailed) _ _ _ _)
      exact fun _ => Fallible.segments_pure _

theorem assertNotLastDriveAdmin_ok {driveId userId : Text} {action : AdminAction}
    {db : Directory} (h : assertNotLastDriveAdmin driveId userId action db = .ok ()) :
  findSoleAdminDrives userId [driveId] db = []
  := by
  unfold assertNotLastDriveAdmin at h
  split at h
  · assumption
  · cases h

theorem updateDriveMemberRole_steps (driveId userId : Text) (role : Role) :
  (updateDriveMemberRole driveId userId role).Steps
  := by
  apply transaction_steps
  intro db x e h
  split at h
  · cases h
  · rename_i member hfound
    obtain ⟨_, hguard, hpure⟩ := bind_eq_ok_iff.mp h
    cases hpure
    apply DirStep.driveRoleSet driveId userId role member hfound
    intro hadmin hrole
    rw [if_pos ⟨hadmin, hrole⟩] at hguard
    exact assertNotLastDriveAdmin_ok hguard

theorem removeDriveMember_steps (driveId userId : Text) :
  (removeDriveMember driveId userId).Steps
  := by
  apply transaction_steps
  intro db x e h
  split at h
  · cases h
  · rename_i member hfound
    obtain ⟨_, hguard, hpure⟩ := bind_eq_ok_iff.mp h
    cases hpure
    apply DirStep.driveMemberRemoved driveId userId member hfound
    intro hadmin
    rw [if_pos hadmin] at hguard
    exact assertNotLastDriveAdmin_ok hguard

theorem createPendingInvite_steps (toLowerCase sha256 : Text → Text) (orgId email : Text)
    (role : Role) (drives : List DriveGrant) (invitedBy : Text) :
  (createPendingInvite toLowerCase sha256 orgId email role drives invitedBy).Steps
  := by
  apply transaction_steps
  intro db x e h
  dsimp only at h
  split at h
  · cases h
  · cases h
    exact .invited orgId _

theorem getInviteByToken_steps (sha256 : Text → Text) (token : Text) :
  (getInviteByToken sha256 token).Steps
  := by
  unfold getInviteByToken
  split
  · exact select_steps _
  · exact Fallible.segments_pure _

/-- The transaction of `acceptInvite`. -/
theorem acceptInvite_granted {invite : InviteRow} {userId : Text} {granted : List DriveGrant}
    {skipped : List Text} {db db₁ : Directory} {invites : List InviteRow} {e : Effect DirAnswer}
    (hdb : db₁ = { db with invites := invites })
    (h : (do
      let (role, db₂) ← grantOrgRole invite.orgId userId invite.orgRole db₁
      let (held, db₃) ← grantDriveRoles userId granted db₂
      pure (.accepted invite.orgId role held skipped,
        .granted invite.orgId userId granted, db₃) : Except IdentityError (Effect DirAnswer)) =
      .ok e) :
  DirStep db e.2.1 e.2.2
  := by
  obtain ⟨⟨role, db₂⟩, horg, h⟩ := bind_eq_ok_iff.mp h
  obtain ⟨⟨held, db₃⟩, hdrives, h⟩ := bind_eq_ok_iff.mp h
  cases h
  subst hdb
  rw [grantDriveRoles_eq hdrives, grantOrgRole_eq horg]
  exact .granted invite.orgId userId invite.orgRole granted invites

theorem acceptInvite_steps (lower sha256 : Text → Text) (token userId : Text) :
  (acceptInvite lower sha256 token userId).Steps
  := by
  apply Fallible.always_bind (getInviteByToken_steps sha256 token)
  intro invite
  cases invite with
  | none => exact Fallible.segments_throw _
  | some invite =>
      apply Fallible.always_bind (resolveUserByEmail_steps lower _)
      intro lookup
      cases lookup with
      | ambiguous candidates => exact Fallible.segments_throw _
      | none => exact Fallible.segments_throw _
      | found user =>
          dsimp only
          split
          · exact Fallible.segments_throw _
          · apply Fallible.always_bind
            · apply statement_steps (fun _ => .quiet)
              intro db x e h
              cases h
              apply DirStep.sawDrives
              intro id hid
              obtain ⟨d, hd, rfl⟩ := List.mem_map.mp hid
              have horg := List.of_mem_filter hd
              simp only [decide_eq_true_eq] at horg
              exact ⟨d, List.mem_of_mem_filter hd, rfl, horg⟩
            · intro existing
              apply transaction_steps
              intro db x e h
              split at h
              · exact acceptInvite_granted rfl h
              · cases h

theorem setOrgMemberRole_steps (orgId userId : Text) (role : Role) (demotes : Bool) :
  (setOrgMemberRole orgId userId role demotes).Steps
  := by
  apply transaction_steps
  intro db x e h
  cases h
  dsimp only
  split
  · exact .orgRoleSet orgId userId role _
  · exact .orgRoleSet orgId userId role _

theorem updateOrgMemberRole_steps (orgId userId : Text) (role : Role) :
  (updateOrgMemberRole orgId userId role).Steps
  := by
  apply Fallible.always_bind (select_steps _)
  intro existing
  split
  · apply Fallible.always_bind (select_steps _)
    exact fun _ => setOrgMemberRole_steps _ _ _ _
  · exact setOrgMemberRole_steps _ _ _ _

theorem removeOrgMember_steps (orgId userId : Text) :
  (removeOrgMember orgId userId).Steps
  := by
  apply transaction_steps
  intro db x e h
  split at h
  · cases h
  · split at h
    · cases h
    · rename_i member hfound
      split at h
      · cases h
      · rename_i hguard
        dsimp only at h
        split at h
        · rename_i hsole
          cases h
          exact .orgMemberRemoved orgId userId _ member hfound hguard hsole
        · cases h

theorem assertDrivesInOrg_steps (orgId : Text) (grants : List DriveGrant) :
  (assertDrivesInOrg orgId grants).Steps
  := by
  induction grants with
  | nil => exact Fallible.segments_pure _
  | cons grant grants ih =>
      apply Fallible.always_bind (assertDriveInOrg_steps _ _)
      exact fun _ => ih

theorem resolveInviteGrants_steps (orgId : Text) (role : Role)
    (drives : Option (List DriveGrant)) :
  (resolveInviteGrants orgId role drives).Steps
  := by
  cases drives with
  | none =>
      apply statement_steps (fun _ => .quiet)
      intro db x e h
      split at h
      · rename_i d hfind
        cases h
        apply DirStep.sawDrives
        intro id hid
        obtain rfl := List.mem_singleton.mp hid
        have hprop := List.find?_some hfind
        simp only [decide_eq_true_eq] at hprop
        exact ⟨d, List.mem_of_find?_eq_some hfind, rfl, hprop.1⟩
      · cases h
        exact .quiet
  | some drives =>
      apply Fallible.always_bind (assertDrivesInOrg_steps _ _)
      exact fun _ => Fallible.segments_pure _

theorem grantInvite_steps (toLowerCase : Text → Text) (params : InviteParams) (user : UserRow)
    (grants : List DriveGrant) :
  (grantInvite toLowerCase params user grants).Steps
  := by
  apply transaction_steps
  intro db x e h
  obtain ⟨⟨role, db₁⟩, horg, h⟩ := bind_eq_ok_iff.mp h
  obtain ⟨⟨held, db₂⟩, hdrives, h⟩ := bind_eq_ok_iff.mp h
  cases h
  rw [grantDriveRoles_eq hdrives, grantOrgRole_eq horg]
  exact .granted params.orgId user.id params.role grants _

theorem inviteToOrg_steps (toLowerCase lower sha256 : Text → Text) (params : InviteParams) :
  (inviteToOrg toLowerCase lower sha256 params).Steps
  := by
  apply Fallible.always_bind (resolveUserByEmail_steps lower _)
  intro lookup
  cases lookup with
  | ambiguous candidates => exact Fallible.segments_throw _
  | none =>
      dsimp only
      split
      · exact Fallible.segments_throw _
      · apply Fallible.always_bind (resolveInviteGrants_steps _ _ _)
        exact fun grants => createPendingInvite_steps _ _ _ _ _ _ _
  | found user =>
      apply Fallible.always_bind (resolveInviteGrants_steps _ _ _)
      intro grants
      apply Fallible.always_bind (select_steps _)
      intro orgRole
      split
      · exact createPendingInvite_steps _ _ _ _ _ _ _
      · exact grantInvite_steps _ _ _ _

theorem filterOrgMembers_steps (orgId : Text) (users : List UserRow) :
  (filterOrgMembers orgId users).Steps
  := by
  induction users with
  | nil => exact Fallible.segments_pure _
  | cons user users ih =>
      apply Fallible.always_bind (select_steps _)
      intro role
      apply Fallible.always_bind ih
      exact fun _ => Fallible.segments_pure _

theorem resolveAccount_steps (lower : Text → Text) (orgId : Text) (account : AccountRef) :
  (resolveAccount lower orgId account).Steps
  := by
  cases account with
  | userId userId => exact select_steps _
  | email email =>
      apply Fallible.always_bind (resolveUserByEmail_steps lower _)
      intro lookup
      cases lookup with
      | found user => exact Fallible.segments_pure _
      | none => exact Fallible.segments_pure _
      | ambiguous candidates =>
          apply Fallible.always_bind (filterOrgMembers_steps _ _)
          intro members
          split
          · exact Fallible.segments_throw _
          · exact Fallible.segments_pure _

theorem addDriveMember_steps (lower : Text → Text) (orgId driveId : Text) (role : Role)
    (account : AccountRef) :
  (addDriveMember lower orgId driveId role account).Steps
  := by
  apply Fallible.always_bind (assertDriveInOrg_steps _ _)
  intro _
  apply Fallible.always_bind (resolveAccount_steps _ _ _)
  intro user
  cases user with
  | none => exact Fallible.segments_throw _
  | some user =>
      apply Fallible.always_bind (select_steps _)
      intro orgRole
      cases orgRole with
      | none => exact Fallible.segments_throw _
      | some _ =>
          apply transaction_steps
          intro db x e h
          obtain ⟨⟨⟨held, created⟩, db'⟩, hgrant, h⟩ := bind_eq_ok_iff.mp h
          cases h
          rw [grantDriveRole_eq hgrant]
          exact .driveGranted driveId orgId user.id role

section

variable (toLowerCase lower sha256 : Text → Text)

theorem DirRequest.program_steps (request : DirRequest) :
  (request.program toLowerCase lower sha256).Steps
  := by
  cases request with
  | createOrg name userId isPersonal => exact createOrg_steps _ _ _
  | createDrive orgId name creatorUserId =>
      apply Fallible.always_bind (createDrive_steps (fun _ => .quiet) _ _ _ _)
      exact fun _ => Fallible.segments_pure _
  | inviteToOrg params => exact inviteToOrg_steps _ _ _ _
  | acceptInvite token userId => exact acceptInvite_steps _ _ _ _
  | addDriveMember orgId driveId role account => exact addDriveMember_steps _ _ _ _ _
  | updateOrgMemberRole orgId userId role => exact updateOrgMemberRole_steps _ _ _
  | removeOrgMember orgId userId => exact removeOrgMember_steps _ _
  | updateDriveMemberRole driveId userId role =>
      apply Fallible.always_bind (updateDriveMemberRole_steps _ _ _)
      exact fun _ => Fallible.segments_pure _
  | removeDriveMember driveId userId =>
      apply Fallible.always_bind (removeDriveMember_steps _ _)
      exact fun _ => Fallible.segments_pure _

/-- Every step of every run of the identity operations is one of the steps. -/
theorem dirPool_steps (db : Directory) (requests : List DirRequest)
    (sched : List (Nat × DirInput)) :
  (dirPool toLowerCase lower sha256 db requests).Admits
    (fun cf _ r => DirStep cf.state r.1 r.2) sched
  := by
  apply Pool.admits_of_always (L := fun db r => DirStep db r.1 r.2)
  intro p hp
  obtain ⟨request, -, rfl⟩ := List.mem_map.mp hp
  exact request.program_steps toLowerCase lower sha256

end

end AgentFs

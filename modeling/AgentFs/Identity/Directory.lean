import AgentFs.Context
import AgentFs.Ops.Content
import AgentFs.Identity.Members

/-!
# Orgs, drives and their members

The operations of `identity/orgs.ts`, `identity/drives.ts`, `identity/grants.ts` and
`identity/invites.ts` that change who belongs to what.  Several processes share one database
file, so every statement outside a transaction is a segment of its own and every transaction
is one segment.  `toLowerCase` is the method of JavaScript strings, `lower` the function of
SQLite, and `sha256` hashes invite tokens.
-/

namespace AgentFs

open Async

/-! ### Tables -/

structure UserRow where
  id : Text
  email : Text
  deriving DecidableEq, Repr

structure OrgRow where
  id : Text
  name : Text
  isPersonal : Bool
  deriving DecidableEq, Repr

structure DriveRow where
  id : Text
  orgId : Text
  name : Text
  isDefault : Bool
  deriving DecidableEq, Repr

/-- A role on a drive that an invite grants. -/
structure DriveGrant where
  driveId : Text
  role : Role
  deriving DecidableEq, Repr

structure InviteRow where
  id : Text
  orgId : Text
  email : Text
  orgRole : Role
  drives : List DriveGrant
  tokenHash : Text
  createdBy : Text
  createdAt : Nat
  expiresAt : Nat
  acceptedAt : Option Nat
  acceptedBy : Option Text
  revokedAt : Option Nat
  deriving DecidableEq, Repr

structure ApiKeyRow where
  id : Text
  userId : Text
  createdByUserId : Text
  orgId : Option Text
  revokedAt : Option Nat
  deriving DecidableEq, Repr

/-- The tables of the identity operations. -/
structure Directory where
  users : List UserRow
  orgs : List OrgRow
  orgMembers : List Member
  drives : List DriveRow
  driveMembers : List Member
  invites : List InviteRow
  apiKeys : List ApiKeyRow
  deriving DecidableEq, Repr

/-! ### Segments -/

/-- How an identity operation can fail. -/
inductive IdentityError where
  /-- `new Error(message)`. -/
  | plain (message : String)
  | notFound (info : ErrorInfo)
  | validation (info : ErrorInfo)
  | permissionDenied (info : ErrorInfo)
  /-- A statement threw: a taken key, a missing row that a foreign key needs, or an error of
  the database itself. -/
  | unique
  | foreignKey
  | sql
  deriving DecidableEq, Repr

/-- What a segment did. -/
inductive DirAction where
  /-- Nothing. -/
  | quiet
  /-- It found the drives in the org. -/
  | sawDrives (orgId : Text) (driveIds : List Text)
  | orgInserted (orgId : Text)
  /-- The creator of the org became its admin. -/
  | orgFounded (orgId userId : Text)
  | driveInserted (driveId orgId : Text)
  /-- The creator of the drive became its admin. -/
  | driveFounded (driveId orgId userId : Text)
  /-- A statement of `createOrg` or `createDrive` threw after an earlier one had committed. -/
  | createFailed
  | invited (orgId : Text)
  | inviteRevoked (orgId : Text)
  /-- `inviteToOrg` or `acceptInvite` granted roles in the org and on its drives. -/
  | granted (orgId userId : Text) (grants : List DriveGrant)
  /-- `addDriveMember` granted a role on a drive. -/
  | driveGranted (driveId orgId userId : Text)
  | orgRoleSet (orgId userId : Text) (role : Role)
  | orgMemberRemoved (orgId userId : Text)
  | driveRoleSet (driveId userId : Text)
  | driveMemberRemoved (driveId userId : Text)
  deriving DecidableEq, Repr

/-- What one segment takes from outside: whether the database fails, the clock in
milliseconds, a random id and a random token. -/
structure DirInput where
  fail : Bool
  now : Nat
  uuid : Text
  token : Text

/-- The program of an identity operation. -/
abbrev DirOp (α : Type) := Fallible Directory DirInput DirAction IdentityError α

/-- What a statement or a transaction computes: its value, what it did, and the tables. -/
abbrev Effect (α : Type) := α × DirAction × Directory

/-- One statement, or one transaction.  When it throws it is rolled back, and `failed` is
reported. -/
def statement {α : Type} (failed : DirAction)
    (f : Directory → DirInput → Except IdentityError (Effect α)) : DirOp α :=
  Fallible.atomic fun db x =>
    match (if x.fail then .error .sql else f db x) with
    | .error e => (.error e, failed, db)
    | .ok (a, action, db') => (.ok a, action, db')

/-- `db.transaction(..)`, and `withWriteLock`, which takes the write lock up front. -/
def transaction {α : Type} (f : Directory → DirInput → Except IdentityError (Effect α)) :
    DirOp α :=
  statement .quiet f

/-- One `SELECT`. -/
def select {α : Type} (f : Directory → DirInput → Except IdentityError α) : DirOp α :=
  statement .quiet fun db x => do
    let a ← f db x
    pure (a, .quiet, db)

/-! ### `users.ts` -/

/-- What an email resolves to. -/
inductive EmailLookup where
  | found (user : UserRow)
  | none
  | ambiguous (candidates : List UserRow)
  deriving DecidableEq, Repr

def resolveUserByEmail (lower : Text → Text) (email : Text) : DirOp EmailLookup := do
  let exact ← select fun db _ => pure (db.users.find? (fun u => u.email = trim email))
  match exact with
  | some user => pure (.found user)
  | none =>
      let candidates ← select fun db _ =>
        pure (db.users.filter (fun u => lower u.email = lower (trim email)))
      match candidates with
      | [] => pure .none
      | [user] => pure (.found user)
      | _ => pure (.ambiguous candidates)

def ambiguousEmailError (email : Text) (count : Nat) : IdentityError :=
  .validation
    { message := toString count ++ " accounts match " ++ String.ofList (trim email) ++
        " when letter case is ignored"
      field := "email"
      suggestion := "Use the account's exact email, including letter case" }

/-! ### `rbac.ts` -/

def getUserOrgRole (userId orgId : Text) : DirOp (Option Role) :=
  select fun db _ => pure ((findMember db.orgMembers orgId userId).map (·.role))

def assertDriveInOrg (driveId orgId : Text) : DirOp Unit :=
  statement .quiet fun db _ =>
    match db.drives.find? (fun d => d.id = driveId) with
    | some d =>
        if d.orgId = orgId then .ok ((), .sawDrives orgId [driveId], db)
        else .error (.notFound
          { message := "Drive not found in org: " ++ String.ofList driveId
            suggestion := "Check the driveId belongs to the org you are addressing" })
    | none => .error (.notFound
        { message := "Drive not found in org: " ++ String.ofList driveId
          suggestion := "Check the driveId belongs to the org you are addressing" })

/-! ### `grants.ts` -/

/-- `grantOrgRole`; the role the member ends up with.  A new row needs its org and user. -/
def grantOrgRole (orgId userId : Text) (role : Role) (db : Directory) :
    Except IdentityError (Role × Directory) :=
  let members := grantRole orgId userId role db.orgMembers
  if IsMember db.orgMembers orgId userId ∨
      ((∃ o ∈ db.orgs, o.id = orgId) ∧ ∃ u ∈ db.users, u.id = userId) then
    .ok (((findMember members orgId userId).map (·.role)).getD role,
      { db with orgMembers := members })
  else .error .foreignKey

/-- `grantDriveRole`; the role the member ends up with, and whether they are new. -/
def grantDriveRole (driveId userId : Text) (role : Role) (db : Directory) :
    Except IdentityError ((Role × Bool) × Directory) :=
  let members := grantRole driveId userId role db.driveMembers
  if IsMember db.driveMembers driveId userId ∨
      ((∃ d ∈ db.drives, d.id = driveId) ∧ ∃ u ∈ db.users, u.id = userId) then
    .ok ((((findMember members driveId userId).map (·.role)).getD role,
        (findMember db.driveMembers driveId userId).isNone),
      { db with driveMembers := members })
  else .error .foreignKey

/-- Grant the drive roles of an invite one after the other. -/
def grantDriveRoles (userId : Text) :
    List DriveGrant → Directory → Except IdentityError (List DriveGrant × Directory)
  | [], db => .ok ([], db)
  | grant :: grants, db => do
      let ((role, _), db₁) ← grantDriveRole grant.driveId userId grant.role db
      let (held, db₂) ← grantDriveRoles userId grants db₁
      pure (⟨grant.driveId, role⟩ :: held, db₂)

/-! ### `api-keys.ts` -/

/-- Why keys are revoked. -/
inductive RevokeReason where
  | memberLeftOrg (orgId userId : Text)
  | adminDemoted (orgId userId : Text)
  | selfReset (userId : Text)

/-- The keys that a reason revokes. -/
def RevokeReason.Matches : RevokeReason → ApiKeyRow → Prop
  | .memberLeftOrg orgId userId, k =>
      k.orgId = some orgId ∧ (k.userId = userId ∨ k.createdByUserId = userId)
  | .adminDemoted orgId userId, k =>
      k.orgId = some orgId ∧ k.createdByUserId = userId ∧ k.userId ≠ userId
  | .selfReset userId, k => k.userId = userId ∧ k.orgId ≠ none

instance (reason : RevokeReason) (k : ApiKeyRow) : Decidable (reason.Matches k) :=
  match reason with
  | .memberLeftOrg _ _ => inferInstanceAs (Decidable (_ ∧ _))
  | .adminDemoted _ _ => inferInstanceAs (Decidable (_ ∧ _))
  | .selfReset _ => inferInstanceAs (Decidable (_ ∧ _))

def revokeGrantedKeys (reason : RevokeReason) (now : Nat) (db : Directory) : Directory :=
  { db with apiKeys := db.apiKeys.map (fun k =>
      if reason.Matches k ∧ k.revokedAt = none then
        { k with revokedAt := some (now / 1000 * 1000) }
      else k) }

/-! ### `drives.ts` -/

/-- `createDrive`; `failed` is what a failure of its first statement is reported as. -/
def createDrive (failed : DirAction) (orgId name : Text) (isDefault : Bool)
    (creatorUserId : Option Text) : DirOp Text := do
  let id ← statement failed fun db x =>
    if ∃ d ∈ db.drives, d.id = x.uuid then .error .unique
    else if ∃ o ∈ db.orgs, o.id = orgId then
      .ok (x.uuid, .driveInserted x.uuid orgId,
        { db with drives := db.drives ++ [⟨x.uuid, orgId, name, isDefault⟩] })
    else .error .foreignKey
  match creatorUserId with
  | none => pure id
  | some userId =>
      statement .createFailed fun db _ =>
        if IsMember db.driveMembers id userId then .error .unique
        else if ∃ u ∈ db.users, u.id = userId then
          .ok (id, .driveFounded id orgId userId,
            { db with driveMembers := db.driveMembers ++ [⟨id, userId, .admin⟩] })
        else .error .foreignKey

/-- A drive by its id and name. -/
structure DriveName where
  id : Text
  name : Text
  deriving DecidableEq, Repr

/-- Of the drives, those where the user is the only admin. -/
def findSoleAdminDrives (userId : Text) (driveIds : List Text) (db : Directory) :
    List DriveName :=
  driveIds.filterMap (fun driveId =>
    match adminsOf db.driveMembers driveId with
    | [admin] =>
        if admin.userId = userId then
          some ⟨driveId, ((db.drives.find? (fun d => d.id = driveId)).map (·.name)).getD driveId⟩
        else none
    | _ => none)

/-- `"work" (drv_1), "docs" (drv_2)`. -/
def describeDrives (drives : List DriveName) : String :=
  String.intercalate ", " (drives.map (fun d =>
    "\"" ++ String.ofList d.name ++ "\" (" ++ String.ofList d.id ++ ")"))

/-- What would become of the only admin of a drive. -/
inductive AdminAction where
  | demote
  | remove

/-- Throw when the user is the only admin of the drive. -/
def assertNotLastDriveAdmin (driveId userId : Text) (action : AdminAction) (db : Directory) :
    Except IdentityError Unit :=
  match findSoleAdminDrives userId [driveId] db with
  | [] => .ok ()
  | blocking =>
      .error (.validation
        { message := "Cannot " ++ (match action with
              | .demote => "demote"
              | .remove => "remove") ++
            " the only admin of drive " ++ describeDrives blocking
          suggestion := "Make another member an admin of the drive first" })

def updateDriveMemberRole (driveId userId : Text) (role : Role) : DirOp Unit :=
  transaction fun db _ =>
    match findMember db.driveMembers driveId userId with
    | none => .error (.plain "Member not found in drive")
    | some existing => do
        let _ ← (if existing.role = .admin ∧ role ≠ .admin then
            assertNotLastDriveAdmin driveId userId .demote db
          else .ok () : Except IdentityError Unit)
        pure ((), .driveRoleSet driveId userId,
          { db with driveMembers := setRole driveId userId role db.driveMembers })

def removeDriveMember (driveId userId : Text) : DirOp Unit :=
  transaction fun db _ =>
    match findMember db.driveMembers driveId userId with
    | none => .error (.plain "Member not found in drive")
    | some existing => do
        let _ ← (if existing.role = .admin then
            assertNotLastDriveAdmin driveId userId .remove db
          else .ok () : Except IdentityError Unit)
        pure ((), .driveMemberRemoved driveId userId,
          { db with driveMembers := removeMember driveId userId db.driveMembers })

/-! ### `invites.ts` -/

def inviteTtlSeconds : Nat := 7 * 24 * 3600

/-- A token: 43 characters of the URL-safe alphabet. -/
def IsInviteToken (token : Text) : Prop :=
  token.length = 43 ∧ ∀ c ∈ token, c.isAlphanum = true ∨ c = '_' ∨ c = '-'

instance (token : Text) : Decidable (IsInviteToken token) :=
  @instDecidableAnd _ _ _ (List.decidableBAll _ token)

def normalizeInviteEmail (toLowerCase : Text → Text) (email : Text) : Text :=
  toLowerCase (trim email)

/-- A time as a `timestamp` column stores it: in whole seconds. -/
def storedTime (ms : Nat) : Nat := ms / 1000 * 1000

/-- Neither accepted nor revoked. -/
def InviteRow.Open (invite : InviteRow) : Prop :=
  invite.acceptedAt = none ∧ invite.revokedAt = none

instance (invite : InviteRow) : Decidable invite.Open :=
  inferInstanceAs (Decidable (_ ∧ _))

def invalidInvite : IdentityError :=
  .notFound
    { message := "Invite not found or no longer valid"
      suggestion := "Ask the person who invited you for a new link" }

def revokeOpenInviteForEmail (toLowerCase : Text → Text) (orgId email : Text) (now : Nat)
    (invites : List InviteRow) : List InviteRow :=
  invites.map (fun i =>
    if i.orgId = orgId ∧ i.email = normalizeInviteEmail toLowerCase email ∧ i.Open then
      { i with revokedAt := some (storedTime now) }
    else i)

/-- What an identity operation answers. -/
inductive DirAnswer where
  | org (id name : Text)
  | drive (id name : Text)
  | done
  | pending (inviteId email token : Text) (expiresAt : Nat) (drives : List DriveGrant)
  | added (userId email : Text) (orgRole : Role) (drives : List DriveGrant)
  | driveMember (userId email driveId : Text) (role : Role) (created : Bool)
  | accepted (orgId : Text) (role : Role) (drives : List DriveGrant) (skippedDrives : List Text)
  deriving DecidableEq, Repr

def createPendingInvite (toLowerCase sha256 : Text → Text) (orgId email : Text) (role : Role)
    (drives : List DriveGrant) (invitedBy : Text) : DirOp DirAnswer :=
  transaction fun db x =>
    let email := normalizeInviteEmail toLowerCase email
    let expiresAt := x.now + inviteTtlSeconds * 1000
    let invites := revokeOpenInviteForEmail toLowerCase orgId email x.now db.invites
    let row : InviteRow :=
      { id := x.uuid
        orgId := orgId
        email := email
        orgRole := role
        drives := drives
        tokenHash := sha256 x.token
        createdBy := invitedBy
        createdAt := storedTime x.now
        expiresAt := storedTime expiresAt
        acceptedAt := none
        acceptedBy := none
        revokedAt := none }
    if ∃ i ∈ invites, i.id = row.id ∨ i.tokenHash = row.tokenHash ∨
        (i.orgId = row.orgId ∧ i.email = row.email ∧ i.Open) then
      .error .unique
    else .ok (.pending row.id email x.token expiresAt drives, .invited orgId,
      { db with invites := invites ++ [row] })

def getInviteByToken (sha256 : Text → Text) (token : Text) : DirOp (Option InviteRow) :=
  if IsInviteToken token then
    select fun db x =>
      pure ((db.invites.find? (fun i => i.tokenHash = sha256 token ∧ i.Open)).filter
        (fun i => x.now < i.expiresAt))
  else pure none

def acceptInvite (lower sha256 : Text → Text) (token userId : Text) : DirOp DirAnswer := do
  match ← getInviteByToken sha256 token with
  | none => throw invalidInvite
  | some invite =>
      match ← resolveUserByEmail lower invite.email with
      | .ambiguous candidates => throw (ambiguousEmailError invite.email candidates.length)
      | .none => throw (wrongAccount invite.email)
      | .found user =>
          if user.id ≠ userId then throw (wrongAccount invite.email)
          let existing ← statement .quiet fun db _ =>
            let ids := (db.drives.filter (fun d => d.orgId = invite.orgId)).map (·.id)
            .ok (ids, .sawDrives invite.orgId ids, db)
          let granted := invite.drives.filter (fun g => g.driveId ∈ existing)
          let skipped := invite.drives.filter (fun g => g.driveId ∉ existing)
          transaction fun db x =>
            if ∃ i ∈ db.invites, i.id = invite.id ∧ i.Open then do
              let db₁ := { db with invites := db.invites.map (fun i =>
                if i.id = invite.id ∧ i.Open then
                  { i with acceptedAt := some (storedTime x.now), acceptedBy := some userId }
                else i) }
              let (role, db₂) ← grantOrgRole invite.orgId userId invite.orgRole db₁
              let (held, db₃) ← grantDriveRoles userId granted db₂
              pure (.accepted invite.orgId role held (skipped.map (·.driveId)),
                .granted invite.orgId userId granted, db₃)
            else .error invalidInvite
where
  wrongAccount (email : Text) : IdentityError :=
    .permissionDenied
      { message := "This invite is for " ++ String.ofList email
        suggestion := "Sign in as " ++ String.ofList email ++
          " (register that email if it has no account yet), then accept again" }

def revokeInvite (orgId inviteId : Text) : DirOp DirAnswer :=
  statement .quiet fun db x =>
    if ∃ i ∈ db.invites, i.id = inviteId ∧ i.orgId = orgId ∧ i.Open then
      .ok (.done, .inviteRevoked orgId,
        { db with
          invites := db.invites.map (fun i =>
            if i.id = inviteId ∧ i.orgId = orgId ∧ i.Open then
              { i with revokedAt := some (storedTime x.now) }
            else i) })
    else .error (.notFound
      { message := "Pending invite not found: " ++ String.ofList inviteId
        suggestion := "List pending invites with 'agent-fs member invites'" })

/-! ### `orgs.ts` -/

def createOrg (name userId : Text) (isPersonal : Bool) : DirOp DirAnswer := do
  let id ← statement .quiet fun db x =>
    if ∃ o ∈ db.orgs, o.id = x.uuid then .error .unique
    else .ok (x.uuid, .orgInserted x.uuid,
      { db with orgs := db.orgs ++ [⟨x.uuid, name, isPersonal⟩] })
  statement .createFailed fun db _ =>
    if IsMember db.orgMembers id userId then .error .unique
    else if ∃ u ∈ db.users, u.id = userId then
      .ok ((), .orgFounded id userId,
        { db with orgMembers := db.orgMembers ++ [⟨id, userId, .admin⟩] })
    else .error .foreignKey
  let _ ← createDrive .createFailed id "default".toList true (some userId)
  pure (.org id name)

/-- The transaction of `updateOrgMemberRole`; `demotes` says that it was found to take the
admin role away. -/
def setOrgMemberRole (orgId userId : Text) (role : Role) (demotes : Bool) : DirOp DirAnswer :=
  transaction fun db x =>
    let db₁ := { db with orgMembers := setRole orgId userId role db.orgMembers }
    .ok (.done, .orgRoleSet orgId userId role,
      if demotes then revokeGrantedKeys (.adminDemoted orgId userId) x.now db₁ else db₁)

def updateOrgMemberRole (orgId userId : Text) (role : Role) : DirOp DirAnswer := do
  let existing ← select fun db _ =>
    match findMember db.orgMembers orgId userId with
    | none => .error (.plain "Member not found in org")
    | some member => .ok member.role
  if existing = .admin ∧ role ≠ .admin then do
    select fun db _ =>
      if (adminsOf db.orgMembers orgId).length ≤ 1 then
        .error (.plain "Cannot remove the last admin from the org")
      else .ok ()
    setOrgMemberRole orgId userId role true
  else
    setOrgMemberRole orgId userId role false

def removeOrgMember (orgId userId : Text) : DirOp DirAnswer :=
  transaction fun db x =>
    if ((db.orgs.find? (fun o => o.id = orgId)).any (·.isPersonal)) then
      .error (.plain "Cannot remove members from a personal org")
    else
      match findMember db.orgMembers orgId userId with
      | none => .error (.plain "Member not found in org")
      | some member =>
          if member.role = .admin ∧ (adminsOf db.orgMembers orgId).length ≤ 1 then
            .error (.plain "Cannot remove the last admin from the org")
          else
            let orgDrives := (db.drives.filter (fun d => d.orgId = orgId)).map (·.id)
            match findSoleAdminDrives userId orgDrives db with
            | [] =>
                .ok (.done, .orgMemberRemoved orgId userId,
                  revokeGrantedKeys (.memberLeftOrg orgId userId) x.now
                    { db with
                      driveMembers := orgDrives.foldl
                        (fun members driveId => removeMember driveId userId members)
                        db.driveMembers
                      orgMembers := removeMember orgId userId db.orgMembers })
            | blocking =>
                .error (.validation
                  { message := "Cannot remove this member: they are the only admin of " ++
                      (if blocking.length = 1 then "drive" else "drives") ++ " " ++
                      describeDrives blocking
                    suggestion := "Make another member an admin of each of these drives first" })

/-- Check that every drive of the grants is in the org. -/
def assertDrivesInOrg (orgId : Text) : List DriveGrant → DirOp Unit
  | [] => pure ()
  | grant :: grants => do
      assertDriveInOrg grant.driveId orgId
      assertDrivesInOrg orgId grants

/-- The grants by drive; the last grant wins when a drive is listed twice. -/
def dedupeGrants (grants : List DriveGrant) : List DriveGrant :=
  grants.foldl (fun acc g =>
    if ∃ a ∈ acc, a.driveId = g.driveId then
      acc.map (fun a => if a.driveId = g.driveId then g else a)
    else acc ++ [g]) []

/-- Validate and dedupe drive grants, or pick the default drive when omitted. -/
def resolveInviteGrants (orgId : Text) (role : Role) :
    Option (List DriveGrant) → DirOp (List DriveGrant)
  | none => statement .quiet fun db _ =>
      match db.drives.find? (fun d => d.orgId = orgId ∧ d.isDefault = true) with
      | some d => .ok ([⟨d.id, role⟩], .sawDrives orgId [d.id], db)
      | none => .ok ([], .quiet, db)
  | some drives => do
      assertDrivesInOrg orgId drives
      pure (dedupeGrants drives)

structure InviteParams where
  orgId : Text
  email : Text
  role : Role
  drives : Option (List DriveGrant) := none
  /-- The admin sending the invite. -/
  invitedBy : Option Text := none
  deriving DecidableEq, Repr

/-- Grant the roles of an invite to an account at once. -/
def grantInvite (toLowerCase : Text → Text) (params : InviteParams) (user : UserRow)
    (grants : List DriveGrant) : DirOp DirAnswer :=
  transaction fun db x => do
    let (orgRole, db₁) ← grantOrgRole params.orgId user.id params.role db
    let (held, db₂) ← grantDriveRoles user.id grants db₁
    pure (.added user.id user.email orgRole held, .granted params.orgId user.id grants,
      { db₂ with
        invites := revokeOpenInviteForEmail toLowerCase params.orgId user.email x.now db₂.invites })

def inviteToOrg (toLowerCase lower sha256 : Text → Text) (params : InviteParams) :
    DirOp DirAnswer := do
  match ← resolveUserByEmail lower params.email with
  | .ambiguous candidates => throw (ambiguousEmailError params.email candidates.length)
  | .none =>
      match params.invitedBy with
      | none => throw (.notFound
          { message := "User with email " ++ String.ofList (trim params.email) ++ " not found"
            suggestion := "The person must register an agent-fs account first" })
      | some invitedBy =>
          let grants ← resolveInviteGrants params.orgId params.role params.drives
          createPendingInvite toLowerCase sha256 params.orgId params.email params.role grants
            invitedBy
  | .found user =>
      let grants ← resolveInviteGrants params.orgId params.role params.drives
      let orgRole ← getUserOrgRole user.id params.orgId
      match params.invitedBy, orgRole with
      | some invitedBy, none =>
          createPendingInvite toLowerCase sha256 params.orgId params.email params.role grants
            invitedBy
      | _, _ => grantInvite toLowerCase params user grants

/-- How `addDriveMember` names an account. -/
inductive AccountRef where
  | email (email : Text)
  | userId (userId : Text)
  deriving DecidableEq, Repr

/-- The users of the list that are members of the org. -/
def filterOrgMembers (orgId : Text) : List UserRow → DirOp (List UserRow)
  | [] => pure []
  | user :: users => do
      let role ← getUserOrgRole user.id orgId
      let rest ← filterOrgMembers orgId users
      pure (if role.isSome then user :: rest else rest)

/-- The account that `addDriveMember` is about. -/
def resolveAccount (lower : Text → Text) (orgId : Text) : AccountRef → DirOp (Option UserRow)
  | .userId userId => select fun db _ => pure (db.users.find? (fun u => u.id = userId))
  | .email email => do
      match ← resolveUserByEmail lower email with
      | .found user => pure (some user)
      | .none => pure none
      | .ambiguous candidates =>
          let members ← filterOrgMembers orgId candidates
          if members.length > 1 then throw (ambiguousEmailError email members.length)
          else pure none

def notOrgMember : IdentityError :=
  .notFound
    { message := "Not a member of this org"
      suggestion := "Ask an org admin to invite them to the org first, and use the account's " ++
        "exact email" }

def addDriveMember (lower : Text → Text) (orgId driveId : Text) (role : Role)
    (account : AccountRef) : DirOp DirAnswer := do
  assertDriveInOrg driveId orgId
  match ← resolveAccount lower orgId account with
  | none => throw notOrgMember
  | some user =>
      match ← getUserOrgRole user.id orgId with
      | none => throw notOrgMember
      | some _ =>
          transaction fun db _ => do
            let ((held, created), db') ← grantDriveRole driveId user.id role db
            pure (.driveMember user.id user.email driveId held created,
              .driveGranted driveId orgId user.id, db')

end AgentFs

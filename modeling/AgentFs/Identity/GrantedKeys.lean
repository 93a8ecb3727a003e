import AgentFs.Identity.System

/-!
# Granted keys

An org admin can mint a key for a member; it is scoped to the org, and it is meant to live
only as long as the grants behind it.  The routes of `routes/orgs.ts` run in one process, so
a segment is what happens between two `await`s.  Every granted key is backed by the roles of
its owner and its creator, in every run in which the mint route still finds them when it
inserts the key: the route checks them before it awaits the request body, and not again.
-/

namespace AgentFs

open Async

/-! ### Routes -/

/-- How a route can fail. -/
inductive RouteError where
  | identity (e : IdentityError)
  /-- A `PermissionDeniedError` that names roles. -/
  | permissionDenied (info : ErrorInfo) (requiredRole yourRole : Role)
  /-- The answer `FORBIDDEN`. -/
  | forbidden (info : ErrorInfo)
  /-- The answer `BAD_REQUEST`, with the message of the error. -/
  | badRequest (e : IdentityError)
  /-- The body is not the JSON that the route destructures. -/
  | malformedBody
  deriving DecidableEq, Repr

/-- What a segment of a route did. -/
inductive KeyAction where
  | quiet
  /-- It inserted the key that the actor minted for the user. -/
  | minted (orgId actorId userId : Text)
  | reset
  | roleSet
  | removed
  deriving DecidableEq, Repr

/-- What a route answers. -/
inductive KeyAnswer where
  | minted (keyId label : Text) (createdAt : Nat) (apiKey userId orgId : Text)
  | reset (apiKey userId email : Text)
  | resetScoped (apiKey userId email keyId orgId : Text)
  | ok
  deriving DecidableEq, Repr

/-- The program of a route. -/
abbrev RouteOp (α : Type) := Fallible Directory DirInput KeyAction RouteError α

/-- The code between two `await`s; what throws has written nothing. -/
def routeSegment {α : Type}
    (f : Directory → DirInput → Except RouteError (α × KeyAction × Directory)) : RouteOp α :=
  Fallible.atomic fun db x =>
    match f db x with
    | .error e => (.error e, .quiet, db)
    | .ok (a, action, db') => (.ok a, action, db')

/-! ### Checks -/

/-- What `getUserOrgRole` finds. -/
def Directory.orgRole (db : Directory) (userId orgId : Text) : Option Role :=
  (findMember db.orgMembers orgId userId).map (·.role)

def requireOrgMember (db : Directory) (userId orgId : Text) : Except RouteError Role :=
  match db.orgRole userId orgId with
  | some role => .ok role
  | none =>
      .error (.identity (.notFound
        { message := "Org not found: " ++ String.ofList orgId
          suggestion := "Check the org id or ask an org admin for access" }))

def requireOrgAdmin (db : Directory) (userId orgId : Text) : Except RouteError Role := do
  let role ← requireOrgMember db userId orgId
  if role = .admin then pure role
  else .error (.permissionDenied
    { message := "This operation requires 'admin' role in the org"
      suggestion := "Ask an org admin to perform this operation" } .admin role)

/-! ### `api-keys.ts` -/

def apiKeyLabelMax : Nat := 100

/-- `input` is the label, or nothing when it is no string. -/
def parseApiKeyLabel (input : Option Text) : Except RouteError Text :=
  let label := trim (input.getD [])
  if label = [] ∨ utf16Length label > apiKeyLabelMax then
    .error (.identity (.validation
      { message := "label must be 1–" ++ toString apiKeyLabelMax ++ " characters"
        field := "label" }))
  else .ok label

def userNotFound : RouteError :=
  .identity (.notFound { message := "User not found", suggestion := "Check the user id" })

/-- Insert a key and its audit event. -/
def insertApiKey (key : ApiKeyRow) (orgId : Text) (x : DirInput) (db : Directory) :
    Except RouteError Directory :=
  if x.fail then .error (.identity .sql)
  else if ∃ k ∈ db.apiKeys, k.id = key.id then .error (.identity .unique)
  else if (∃ o ∈ db.orgs, o.id = orgId) ∧ ∃ u ∈ db.users, u.id = key.createdByUserId then
    .ok { db with apiKeys := db.apiKeys ++ [key] }
  else .error (.identity .foreignKey)

/-- `createUserApiKey` of a key that is scoped to the org. -/
def createUserApiKey (userId : Text) (label : Option Text) (actorId orgId : Text)
    (db : Directory) (x : DirInput) :
    Except RouteError (KeyAnswer × KeyAction × Directory) := do
  let label ← parseApiKeyLabel label
  if ∃ u ∈ db.users, u.id = userId then do
    let db' ← insertApiKey ⟨x.uuid, userId, actorId, some orgId, none⟩ orgId x db
    pure (.minted x.uuid label (storedTime x.now) x.token userId orgId,
      .minted orgId actorId userId, db')
  else .error userNotFound

def resetOrgScopedKey (userId actorId orgId : Text) (db : Directory) (x : DirInput) :
    Except RouteError (KeyAnswer × KeyAction × Directory) :=
  match db.users.find? (fun u => u.id = userId) with
  | none => .error userNotFound
  | some user => do
      let revoked := db.apiKeys.map (fun k =>
        if k.userId = userId ∧ k.orgId = some orgId ∧ k.revokedAt = none then
          { k with revokedAt := some (storedTime x.now) }
        else k)
      let db' ← insertApiKey ⟨x.uuid, userId, actorId, some orgId, none⟩ orgId x
        { db with apiKeys := revoked }
      pure (.resetScoped x.token user.id user.email x.uuid orgId, .reset, db')

def resetApiKey (userId actorId orgId : Text) (db : Directory) (x : DirInput) :
    Except RouteError (KeyAnswer × KeyAction × Directory) :=
  if actorId ≠ userId then
    .error (.identity (.permissionDenied
      { message := "Only the user can rotate their own primary API key"
        suggestion := "An org admin's reset-key mints an org-scoped key (resetOrgScopedKey)" }))
  else
    match db.users.find? (fun u => u.id = userId) with
    | none => .error userNotFound
    | some user =>
        if x.fail then .error (.identity .sql)
        else if ∃ o ∈ db.orgs, o.id = orgId then
          .ok (.reset x.token user.id user.email, .reset,
            revokeGrantedKeys (.selfReset userId) x.now db)
        else .error (.identity .foreignKey)

/-! ### `routes/orgs.ts` -/

/-- An identity operation that a route runs between two `await`s; its error is answered as a
bad request. -/
def runIdentity (op : DirOp DirAnswer) (action : KeyAction) (db : Directory) (x : DirInput) :
    Except RouteError KeyAnswer × KeyAction × Directory :=
  match op.run.alone x db with
  | (.ok _, db') => (.ok .ok, action, db')
  | (.error e, db') => (.error (.badRequest e), .quiet, db')

/-- `POST /:orgId/members/:userId/keys`. -/
def mintMemberKey (actorId orgId targetUserId : Text) (label : Option Text) :
    RouteOp KeyAnswer := do
  routeSegment fun db _ => do
    let _ ← requireOrgAdmin db actorId orgId
    let _ ← requireOrgMember db targetUserId orgId
    pure ((), .quiet, db)
  routeSegment (createUserApiKey targetUserId label actorId orgId)

/-- `POST /:orgId/members/:userId/reset-key`; `scopeOrgId` is the org that the key of the
request is scoped to. -/
def resetMemberKey (scopeOrgId : Option Text) (actorId orgId targetUserId : Text) :
    RouteOp KeyAnswer :=
  routeSegment fun db x =>
    if scopeOrgId.isSome then
      .error (.forbidden
        { message := "An org-scoped API key cannot reset a member's primary key"
          suggestion := "Use an unscoped API key for this request" })
    else do
      let _ ← requireOrgAdmin db actorId orgId
      let _ ← requireOrgMember db targetUserId orgId
      if targetUserId = actorId then resetApiKey actorId actorId orgId db x
      else resetOrgScopedKey targetUserId actorId orgId db x

/-- `PATCH /:orgId/members/:userId`; `role` is the role of the body. -/
def patchMember (actorId orgId targetUserId : Text) (role : Option Role) :
    RouteOp KeyAnswer := do
  routeSegment fun db _ => do
    let _ ← requireOrgAdmin db actorId orgId
    pure ((), .quiet, db)
  match role with
  | none => throw .malformedBody
  | some role =>
      Fallible.atomic (runIdentity (updateOrgMemberRole orgId targetUserId role) .roleSet)

/-- `DELETE /:orgId/members/:userId`. -/
def deleteMember (actorId orgId targetUserId : Text) : RouteOp KeyAnswer :=
  Fallible.atomic fun db x =>
    match requireOrgAdmin db actorId orgId with
    | .error e => (.error e, .quiet, db)
    | .ok _ => runIdentity (removeOrgMember orgId targetUserId) .removed db x

/-- A request to the routes. -/
inductive KeyRequest where
  | mintMemberKey (actorId orgId targetUserId : Text) (label : Option Text)
  | resetMemberKey (scopeOrgId : Option Text) (actorId orgId targetUserId : Text)
  | patchMember (actorId orgId targetUserId : Text) (role : Option Role)
  | deleteMember (actorId orgId targetUserId : Text)
  deriving DecidableEq, Repr

/-- The program of a request. -/
def KeyRequest.program : KeyRequest → RouteOp KeyAnswer
  | .mintMemberKey actorId orgId targetUserId label =>
      AgentFs.mintMemberKey actorId orgId targetUserId label
  | .resetMemberKey scopeOrgId actorId orgId targetUserId =>
      AgentFs.resetMemberKey scopeOrgId actorId orgId targetUserId
  | .patchMember actorId orgId targetUserId role =>
      AgentFs.patchMember actorId orgId targetUserId role
  | .deleteMember actorId orgId targetUserId => AgentFs.deleteMember actorId orgId targetUserId

/-- The requests that a server has received. -/
def keyPool (db : Directory) (requests : List KeyRequest) :
    Pool Directory DirInput KeyAction (Except RouteError KeyAnswer) where
  conf := ⟨db, []⟩
  procs := requests.map (fun r => r.program.run)

/-! ### What a step does -/

/-- What one segment of a route can do: the action it reports, and the tables it leaves. -/
inductive KeyStep (db : Directory) : KeyAction → Directory → Prop where
  | quiet : KeyStep db .quiet db
  | minted (orgId actorId userId keyId : Text) :
      KeyStep db (.minted orgId actorId userId)
        { db with apiKeys := db.apiKeys ++ [⟨keyId, userId, actorId, some orgId, none⟩] }
  | selfReset (userId : Text) (now : Nat) :
      KeyStep db .reset (revokeGrantedKeys (.selfReset userId) now db)
  | orgReset (orgId actorId userId keyId : Text) (keys : List ApiKeyRow)
      (admin : db.orgRole actorId orgId = some .admin)
      (member : (db.orgRole userId orgId).isSome)
      (live : ∀ k ∈ keys, k.revokedAt = none → k ∈ db.apiKeys) :
      KeyStep db .reset
        { db with apiKeys := keys ++ [⟨keyId, userId, actorId, some orgId, none⟩] }
  | roleKept (orgId userId : Text) (role : Role)
      (keeps : db.orgRole userId orgId = some .admin → role = .admin) :
      KeyStep db .roleSet { db with orgMembers := setRole orgId userId role db.orgMembers }
  | demoted (orgId userId : Text) (role : Role) (now : Nat) :
      KeyStep db .roleSet
        (revokeGrantedKeys (.adminDemoted orgId userId) now
          { db with orgMembers := setRole orgId userId role db.orgMembers })
  | removed (orgId userId : Text) (now : Nat) (driveMembers : List Member) :
      KeyStep db .removed
        (revokeGrantedKeys (.memberLeftOrg orgId userId) now
          { db with
            orgMembers := removeMember orgId userId db.orgMembers
            driveMembers := driveMembers })

/-- Every segment of the route does one of the steps. -/
abbrev RouteOp.Steps {α : Type} (op : RouteOp α) : Prop :=
  op.run.Always (fun db r => KeyStep db r.1 r.2)

theorem routeSegment_steps {α : Type}
    {f : Directory → DirInput → Except RouteError (α × KeyAction × Directory)}
    (h : ∀ {db x e}, f db x = .ok e → KeyStep db e.2.1 e.2.2) :
  (routeSegment f).Steps
  := by
  apply Fallible.always_atomic
  intro db x
  split
  · exact .quiet
  · rename_i a action db' hok
    exact h hok

theorem requireOrgMember_ok {db : Directory} {userId orgId : Text} {role : Role}
    (h : requireOrgMember db userId orgId = .ok role) :
  db.orgRole userId orgId = some role
  := by
  unfold requireOrgMember at h
  split at h
  · rename_i found hfound
    cases h
    exact hfound
  · cases h

theorem requireOrgAdmin_ok {db : Directory} {userId orgId : Text} {role : Role}
    (h : requireOrgAdmin db userId orgId = .ok role) :
  db.orgRole userId orgId = some .admin
  := by
  obtain ⟨found, hmember, h⟩ := bind_eq_ok_iff.mp h
  split at h
  · rename_i hadmin
    rw [← hadmin]
    exact requireOrgMember_ok hmember
  · cases h

theorem insertApiKey_ok {key : ApiKeyRow} {orgId : Text} {x : DirInput} {db db' : Directory}
    (h : insertApiKey key orgId x db = .ok db') :
  db' = { db with apiKeys := db.apiKeys ++ [key] }
  := by
  unfold insertApiKey at h
  split at h
  · cases h
  · split at h
    · cases h
    · split at h
      · cases h
        rfl
      · cases h

theorem mintMemberKey_steps (actorId orgId targetUserId : Text) (label : Option Text) :
  (mintMemberKey actorId orgId targetUserId label).Steps
  := by
  apply Fallible.always_bind
  · apply routeSegment_steps
    intro db x e h
    obtain ⟨_, -, h⟩ := bind_eq_ok_iff.mp h
    obtain ⟨_, -, h⟩ := bind_eq_ok_iff.mp h
    cases h
    exact .quiet
  · intro _
    apply routeSegment_steps
    intro db x e h
    obtain ⟨label', -, h⟩ := bind_eq_ok_iff.mp h
    split at h
    · obtain ⟨db', hinsert, h⟩ := bind_eq_ok_iff.mp h
      cases h
      rw [insertApiKey_ok hinsert]
      exact .minted orgId actorId targetUserId x.uuid
    · cases h

theorem resetMemberKey_steps (scopeOrgId : Option Text) (actorId orgId targetUserId : Text) :
  (resetMemberKey scopeOrgId actorId orgId targetUserId).Steps
  := by
  apply routeSegment_steps
  intro db x e h
  split at h
  · cases h
  · obtain ⟨_, hadmin, h⟩ := bind_eq_ok_iff.mp h
    obtain ⟨role, hmember, h⟩ := bind_eq_ok_iff.mp h
    split at h
    · unfold resetApiKey at h
      split at h
      · cases h
      · split at h
        · cases h
        · split at h
          · cases h
          · split at h
            · cases h
              exact .selfReset actorId x.now
            · cases h
    · unfold resetOrgScopedKey at h
      split at h
      · cases h
      · obtain ⟨db', hinsert, h⟩ := bind_eq_ok_iff.mp h
        cases h
        rw [insertApiKey_ok hinsert]
        apply KeyStep.orgReset orgId actorId targetUserId x.uuid _ (requireOrgAdmin_ok hadmin)
        · rw [requireOrgMember_ok hmember]
          rfl
        · intro k hk hlive
          obtain ⟨k₀, hk₀, rfl⟩ := List.mem_map.mp hk
          split at hlive
          · cases hlive
          · rename_i hkept
            rw [if_neg hkept]
            exact hk₀

/-- An identity operation that a route runs takes one of the steps, when it does as it
succeeds and leaves the tables alone as it fails. -/
theorem runIdentity_steps {op : DirOp DirAnswer} {action : KeyAction} {db : Directory}
    {x : DirInput}
    (hok : ∀ {answer db'}, op.run.alone x db = (.ok answer, db') → KeyStep db action db')
    (herror : ∀ {e db'}, op.run.alone x db = (.error e, db') → db' = db) :
  KeyStep db (runIdentity op action db x).2.1 (runIdentity op action db x).2.2
  := by
  unfold runIdentity
  split
  · rename_i answer db' halone
    exact hok halone
  · rename_i e db' halone
    rw [herror halone]
    exact .quiet

/-- `setOrgMemberRole`, for a member whose role is known. -/
theorem setOrgMemberRole_alone {orgId userId : Text} {role existing : Role} {x : DirInput}
    {db db' : Directory} {answer : DirAnswer} (hrole : db.orgRole userId orgId = some existing)
    (h : (setOrgMemberRole orgId userId role (existing = .admin ∧ role ≠ .admin)).run.alone x
      db = (.ok answer, db')) :
  KeyStep db .roleSet db'
  := by
  obtain ⟨-, action, h⟩ := statement_alone_ok h
  cases h
  split
  · exact .demoted orgId userId role x.now
  · rename_i hkeeps
    apply KeyStep.roleKept orgId userId role
    intro hadmin
    rw [hrole] at hadmin
    cases hadmin
    by_contra hne
    exact hkeeps (decide_eq_true ⟨rfl, hne⟩)

/-- What `updateOrgMemberRole` leaves when nothing runs in between. -/
theorem updateOrgMemberRole_alone {orgId userId : Text} {role : Role} {x : DirInput}
    {db db' : Directory} {answer : DirAnswer}
    (h : (updateOrgMemberRole orgId userId role).run.alone x db = (.ok answer, db')) :
  KeyStep db .roleSet db'
  := by
  obtain ⟨existing, db₁, hselect, hrest⟩ := Fallible.alone_bind_ok h
  obtain ⟨hread, rfl⟩ := select_alone_ok hselect
  have hrole : db₁.orgRole userId orgId = some existing := by
    unfold Directory.orgRole
    split at hread
    · cases hread
    · rename_i member hfound
      cases hread
      rw [hfound]
      rfl
  split at hrest
  · rename_i hdemotes
    obtain ⟨_, db₂, hcount, hset⟩ := Fallible.alone_bind_ok hrest
    obtain ⟨-, rfl⟩ := select_alone_ok hcount
    apply setOrgMemberRole_alone hrole
    rwa [decide_eq_true hdemotes]
  · rename_i hkeeps
    apply setOrgMemberRole_alone hrole
    rwa [decide_eq_false hkeeps]

/-- `updateOrgMemberRole` writes in its last statement only. -/
theorem updateOrgMemberRole_alone_error {orgId userId : Text} {role : Role} {x : DirInput}
    {db db' : Directory} {e : IdentityError}
    (h : (updateOrgMemberRole orgId userId role).run.alone x db = (.error e, db')) :
  db' = db
  := by
  obtain ⟨_, hselect, -⟩ | ⟨existing, db₁, hselect, hrest⟩ := Fallible.alone_bind_cases h
  · exact statement_alone_error hselect
  · obtain ⟨-, rfl⟩ := select_alone_ok hselect
    split at hrest
    · obtain ⟨_, hcount, -⟩ | ⟨_, db₂, hcount, hset⟩ := Fallible.alone_bind_cases hrest
      · exact statement_alone_error hcount
      · obtain ⟨-, rfl⟩ := select_alone_ok hcount
        exact statement_alone_error hset
    · exact statement_alone_error hrest

/-- What `removeOrgMember` leaves. -/
theorem removeOrgMember_alone {orgId userId : Text} {x : DirInput} {db db' : Directory}
    {answer : DirAnswer}
    (h : (removeOrgMember orgId userId).run.alone x db = (.ok answer, db')) :
  KeyStep db .removed db'
  := by
  obtain ⟨-, action, h⟩ := statement_alone_ok h
  split at h
  · cases h
  · split at h
    · cases h
    · split at h
      · cases h
      · dsimp only at h
        split at h
        · cases h
          exact .removed orgId userId x.now _
        · cases h

theorem patchMember_steps (actorId orgId targetUserId : Text) (role : Option Role) :
  (patchMember actorId orgId targetUserId role).Steps
  := by
  apply Fallible.always_bind
  · apply routeSegment_steps
    intro db x e h
    obtain ⟨_, -, h⟩ := bind_eq_ok_iff.mp h
    cases h
    exact .quiet
  · intro _
    cases role with
    | none => exact Fallible.segments_throw _
    | some role =>
        apply Fallible.always_atomic
        intro db x
        exact runIdentity_steps updateOrgMemberRole_alone updateOrgMemberRole_alone_error

theorem deleteMember_steps (actorId orgId targetUserId : Text) :
  (deleteMember actorId orgId targetUserId).Steps
  := by
  apply Fallible.always_atomic
  intro db x
  split
  · exact .quiet
  · exact runIdentity_steps removeOrgMember_alone statement_alone_error

theorem KeyRequest.program_steps (request : KeyRequest) :
  request.program.Steps
  := by
  cases request with
  | mintMemberKey actorId orgId targetUserId label => exact mintMemberKey_steps _ _ _ _
  | resetMemberKey scopeOrgId actorId orgId targetUserId => exact resetMemberKey_steps _ _ _ _
  | patchMember actorId orgId targetUserId role => exact patchMember_steps _ _ _ _
  | deleteMember actorId orgId targetUserId => exact deleteMember_steps _ _ _

/-- Every step of every run of the routes is one of the steps. -/
theorem keyPool_steps (db : Directory) (requests : List KeyRequest)
    (sched : List (Nat × DirInput)) :
  (keyPool db requests).Admits (fun cf _ r => KeyStep cf.state r.1 r.2) sched
  := by
  apply Pool.admits_of_always (L := fun db r => KeyStep db r.1 r.2)
  intro p hp
  obtain ⟨request, -, rfl⟩ := List.mem_map.mp hp
  exact request.program_steps

/-! ### Backed keys -/

/-- The actor may mint a key for the user in the org: it is their own, or the actor is an
admin and the user a member. -/
def Directory.MayMint (db : Directory) (orgId actorId userId : Text) : Prop :=
  actorId ≠ userId →
    db.orgRole actorId orgId = some .admin ∧ (db.orgRole userId orgId).isSome

instance (db : Directory) (orgId actorId userId : Text) :
    Decidable (db.MayMint orgId actorId userId) :=
  inferInstanceAs (Decidable (_ → _))

/-- The key's creator may mint it now. -/
def ApiKeyRow.Backed (db : Directory) (k : ApiKeyRow) : Prop :=
  ∀ orgId ∈ k.orgId, db.MayMint orgId k.createdByUserId k.userId

instance (db : Directory) (k : ApiKeyRow) : Decidable (k.Backed db) :=
  inferInstanceAs (Decidable (∀ orgId ∈ k.orgId, _))

/-- Every unrevoked key of another creator than its owner is backed by the roles of both. -/
def GrantedKeysBacked (db : Directory) : Prop :=
  ∀ k ∈ db.apiKeys, k.revokedAt = none → k.Backed db

instance (db : Directory) : Decidable (GrantedKeysBacked db) :=
  inferInstanceAs (Decidable (∀ k ∈ db.apiKeys, _))

/-- When the step inserts a key that was minted, its creator may still mint it. -/
def MintStillGranted : StepProp Directory KeyAction := fun cf _ r =>
  match r.1 with
  | .minted orgId actorId userId => cf.state.MayMint orgId actorId userId
  | _ => True

instance (cf : Conf Directory KeyAction) (i : Nat) (r : KeyAction × Directory) :
    Decidable (MintStillGranted cf i r) :=
  match r with
  | (.minted orgId actorId userId, _) =>
      inferInstanceAs (Decidable (cf.state.MayMint orgId actorId userId))
  | (.quiet, _) => isTrue trivial
  | (.reset, _) => isTrue trivial
  | (.roleSet, _) => isTrue trivial
  | (.removed, _) => isTrue trivial

/-- A key that is still live after a revocation was live before, and the reason does not
match it. -/
theorem mem_revokeGrantedKeys {reason : RevokeReason} {now : Nat} {db : Directory}
    {k : ApiKeyRow} (hk : k ∈ (revokeGrantedKeys reason now db).apiKeys)
    (hlive : k.revokedAt = none) :
  k ∈ db.apiKeys ∧ ¬ reason.Matches k
  := by
  obtain ⟨k₀, hk₀, rfl⟩ := List.mem_map.mp hk
  split at hlive
  · cases hlive
  · rename_i hkept
    rw [if_neg hkept]
    exact ⟨hk₀, fun hmatch => hkept ⟨hmatch, hlive⟩⟩

theorem orgRole_setRole {db : Directory} {orgId userId : Text} {role : Role} (u o : Text) :
  Directory.orgRole { db with orgMembers := setRole orgId userId role db.orgMembers } u o =
    if (o, u) = (orgId, userId) then (db.orgRole u o).map (fun _ => role) else db.orgRole u o
  := by
  unfold Directory.orgRole
  rw [findMember_setRole]
  cases hfind : findMember db.orgMembers o u with
  | none => simp
  | some m =>
      rw [Option.map_some, Option.map_some, Option.map_some, (findMember_mem hfind).2]
      split
      · rfl
      · rfl

/-- A minting right outlives a change of a role that takes no admin role from its holder. -/
theorem Directory.MayMint.setRole {db : Directory} {orgId userId o actorId u : Text}
    {role : Role} (h : db.MayMint o actorId u)
    (hkeeps : (o, actorId) = (orgId, userId) → actorId ≠ u → role = .admin) :
  Directory.MayMint { db with orgMembers := AgentFs.setRole orgId userId role db.orgMembers }
    o actorId u
  := by
  intro hne
  obtain ⟨hadmin, hmember⟩ := h hne
  rw [orgRole_setRole, orgRole_setRole]
  constructor
  · split
    · rename_i hsame
      rw [hadmin, Option.map_some, hkeeps hsame hne]
    · exact hadmin
  · split
    · rw [Option.isSome_map]
      exact hmember
    · exact hmember

/-- A step keeps every granted key backed, when a key that it inserts may still be minted. -/
theorem GrantedKeysBacked.step {db db' : Directory} {action : KeyAction}
    (h : GrantedKeysBacked db) (hstep : KeyStep db action db')
    (hmint : ∀ {orgId actorId userId}, action = .minted orgId actorId userId →
      db.MayMint orgId actorId userId) :
  GrantedKeysBacked db'
  := by
  intro k hk hlive
  cases hstep with
  | quiet => exact h k hk hlive
  | minted orgId actorId userId keyId =>
      obtain hk | hk := List.mem_append.mp hk
      · exact h k hk hlive
      · obtain rfl := List.mem_singleton.mp hk
        intro o ho
        cases ho
        exact hmint rfl
  | selfReset userId now =>
      exact h k (mem_revokeGrantedKeys hk hlive).1 hlive
  | orgReset orgId actorId userId keyId keys hadmin hmember hsub =>
      obtain hk | hk := List.mem_append.mp hk
      · exact h k (hsub k hk hlive) hlive
      · obtain rfl := List.mem_singleton.mp hk
        intro o ho _
        cases ho
        exact ⟨hadmin, hmember⟩
  | roleKept orgId userId role hkeeps =>
      intro o ho
      have hbacked := h k hk hlive o ho
      apply hbacked.setRole
      intro hsame hne
      cases hsame
      exact hkeeps (hbacked hne).1
  | demoted orgId userId role now =>
      obtain ⟨hk, hkept⟩ := mem_revokeGrantedKeys hk hlive
      intro o ho
      apply (h k hk hlive o ho).setRole
      intro hsame hne
      cases hsame
      exact absurd ⟨ho, rfl, hne.symm⟩ hkept
  | removed orgId userId now driveMembers =>
      obtain ⟨hk, hkept⟩ := mem_revokeGrantedKeys hk hlive
      intro o ho hne
      obtain ⟨hadmin, hmember⟩ := h k hk hlive o ho hne
      have hrole : ∀ u, u = k.userId ∨ u = k.createdByUserId →
          Directory.orgRole
            { db with
              orgMembers := removeMember orgId userId db.orgMembers
              driveMembers := driveMembers } u o = db.orgRole u o := by
        intro u hu
        unfold Directory.orgRole
        rw [findMember_removeMember]
        intro hsame
        cases hsame
        exact hkept ⟨ho, hu.imp Eq.symm Eq.symm⟩
      exact ⟨(hrole _ (.inr rfl)).trans hadmin, by rw [← hrole _ (.inl rfl)] at hmember; exact hmember⟩

/-- Every granted key is backed in every run in which the mint route still finds the roles
that it has checked when it inserts the key. -/
theorem granted_keys_backed
    {db : Directory} {requests : List KeyRequest} {sched : List (Nat × DirInput)}
    (hstart : GrantedKeysBacked db) (hmint : (keyPool db requests).Admits MintStillGranted sched) :
  GrantedKeysBacked ((keyPool db requests).run sched).conf.state
  := by
  have hsteps := Pool.admits_and.mpr ⟨keyPool_steps db requests sched, hmint⟩
  apply (hsteps.inv (I := fun cf => GrantedKeysBacked cf.state) _ hstart).2
  rintro cf i ⟨action, db'⟩ ⟨hstep, hmint⟩ hbacked
  apply hbacked.step hstep
  rintro orgId actorId userId rfl
  exact hmint

/-- An org with two admins, `a` and `b`, and a member `m`. -/
def sampleKeyOrg : Directory where
  users := [⟨"a".toList, "a@x.io".toList⟩, ⟨"b".toList, "b@x.io".toList⟩,
    ⟨"m".toList, "m@x.io".toList⟩]
  orgs := [⟨"o".toList, "org".toList, false⟩]
  orgMembers := [⟨"o".toList, "a".toList, .admin⟩, ⟨"o".toList, "b".toList, .admin⟩,
    ⟨"o".toList, "m".toList, .editor⟩]
  drives := []
  driveMembers := []
  invites := []
  apiKeys := []

/-- An admin mints a key for the member, while another one removes the member. -/
def sampleMint : Pool Directory DirInput KeyAction (Except RouteError KeyAnswer) :=
  keyPool sampleKeyOrg
    [.mintMemberKey "a".toList "o".toList "m".toList (some "ci".toList),
      .deleteMember "b".toList "o".toList "m".toList]

/-- The programs take their steps in this order. -/
def sampleMintSchedule (order : List Nat) : List (Nat × DirInput) :=
  order.map (fun i => (i, ⟨false, 1000, "k".toList, "t".toList⟩))

/-- A key that was minted before the member was removed is revoked with the membership. -/
theorem granted_keys_backed_sampleMint :
  GrantedKeysBacked (sampleMint.run (sampleMintSchedule [0, 0, 1])).conf.state
  := granted_keys_backed (by decide) (by decide)

/-- A key that is minted for a member who is removed before the request body has arrived stays
live. -/
theorem granted_key_of_removed_member :
  GrantedKeysBacked sampleKeyOrg ∧
    ¬ GrantedKeysBacked (sampleMint.run (sampleMintSchedule [0, 1, 0])).conf.state
  := by
  constructor
  · decide
  · decide

end AgentFs

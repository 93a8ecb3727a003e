import AgentFs.Identity.GrantedKeys

/-!
# Access to orgs and drives

How a request is authenticated, and how its org, its drive and the role of the caller are
resolved: `middleware/auth.ts`, `identity/context.ts`, `identity/rbac.ts` and the routes that
call them.  `hash` is the hash of API keys, and `decode` what the router makes of a segment of
the path.
-/

namespace AgentFs

/-! ### API keys -/

/-- A parameter that is neither missing nor empty. -/
def given (param : Option Text) : Option Text := param.filter (fun t => t ≠ [])

/-- A user, with the hash of the primary key. -/
structure PrimaryKeyRow where
  id : Text
  email : Text
  apiKeyHash : Text
  deriving DecidableEq, Repr

/-- A row of `user_api_keys`. -/
structure UserKeyRow where
  id : Text
  userId : Text
  keyHash : Text
  orgId : Option Text
  revokedAt : Option Nat
  deriving DecidableEq, Repr

/-- The keys of the users. -/
structure Credentials where
  users : List PrimaryKeyRow
  keys : List UserKeyRow
  deriving DecidableEq, Repr

/-- The holder of an API key; `scopeOrgId` is the org that the key is limited to. -/
structure KeyHolder where
  id : Text
  email : Text
  scopeOrgId : Option Text
  keyId : Text
  deriving DecidableEq, Repr

def getUserByApiKey (hash : Text → Text) (credentials : Credentials) (apiKey : Text) :
    Option KeyHolder :=
  match credentials.users.find? (fun u => u.apiKeyHash = hash apiKey) with
  | some user => some ⟨user.id, user.email, none, "primary".toList⟩
  | none =>
      credentials.keys.findSome? (fun k =>
        if k.keyHash = hash apiKey ∧ k.revokedAt = none then
          (credentials.users.find? (fun u => u.id = k.userId)).map
            (fun u => ⟨u.id, u.email, k.orgId, k.id⟩)
        else none)

/-! ### Errors -/

/-- Why a request is refused. -/
inductive AccessError where
  | notFound (info : ErrorInfo)
  /-- `new Error(message)`. -/
  | plain (message : String)
  /-- `yourRole` is `none` when the caller has no role. -/
  | permissionDenied (info : ErrorInfo) (requiredRole : Role) (yourRole : Option Role)
  | unauthorized (info : ErrorInfo)
  | forbidden (info : ErrorInfo)
  /-- The refusal of `requireOrgMember` or `requireOrgAdmin`. -/
  | org (e : RouteError)
  /-- The answer `VALIDATION_ERROR`. -/
  | invalid (message : String)
  deriving DecidableEq, Repr

/-! ### `middleware/auth.ts` -/

/-- The tool that an MCP request calls. -/
inductive McpCall where
  | op (op : String)
  | members (driveId : Option Text)
  deriving DecidableEq, Repr

/-- A request; `driveId`, `drive_id` and `op` are the fields of an `ops` body. -/
structure HttpRequest where
  method : String
  /-- The path of the URL, as it is written there. -/
  path : Text
  authorization : Option Text := none
  driveId : Option Text := none
  drive_id : Option Text := none
  op : String := ""
  call : McpCall := .members none
  deriving DecidableEq, Repr

def publicPaths : List Text := ["/auth/register".toList, "/health".toList]

def scopedKeyAllows (path scopeOrgId : Text) (method : String) : Prop :=
  path = "/auth/me".toList ∧ method = "GET" ∨
    path ≠ "/auth/me".toList ∧ (path.splitOn '/')[0]? = some [] ∧
      (path.splitOn '/')[1]? = some "orgs".toList ∧ (path.splitOn '/')[2]? = some scopeOrgId

instance (path scopeOrgId : Text) (method : String) :
    Decidable (scopedKeyAllows path scopeOrgId method) :=
  inferInstanceAs (Decidable (_ ∨ _))

/-- The holder of the key of a request; nobody, for a public path. -/
def authMiddleware (hash : Text → Text) (credentials : Credentials) (request : HttpRequest) :
    Except AccessError (Option KeyHolder) :=
  if ∃ p ∈ publicPaths, p <+: request.path then .ok none
  else
    match request.authorization.filter (fun header => "Bearer ".toList <+: header) with
    | none =>
        .error (.unauthorized
          { message := "Missing or invalid Authorization header"
            suggestion := "Include 'Authorization: Bearer <api_key>' header" })
    | some header =>
        match getUserByApiKey hash credentials (header.drop 7) with
        | none =>
            .error (.unauthorized
              { message := "Invalid API key"
                suggestion := "Register with POST /auth/register" })
        | some user =>
            match given user.scopeOrgId with
            | none => .ok (some user)
            | some scopeOrgId =>
                if scopedKeyAllows request.path scopeOrgId request.method then .ok (some user)
                else .error (.forbidden
                  { message := "This API key is limited to one org"
                    suggestion := "Use it only under /orgs/" ++ String.ofList scopeOrgId ++ "/" })

/-! ### `rbac.ts` -/

def opRoles : List (String × Role) :=
    [("ls", .viewer), ("cat", .viewer), ("tail", .viewer), ("stat", .viewer),
      ("reveal", .viewer), ("grep", .viewer), ("fts", .viewer), ("search", .viewer),
      ("vec-search", .viewer), ("log", .viewer), ("diff", .viewer), ("recent", .viewer),
      ("tree", .viewer), ("glob", .viewer), ("find", .viewer), ("sql", .viewer),
      ("signed-url", .viewer), ("share-create", .viewer), ("share-revoke", .viewer),
      ("share-list", .viewer), ("write", .editor), ("edit", .editor), ("append", .editor),
      ("rm", .editor), ("mv", .editor), ("cp", .editor), ("revert", .editor),
      ("reindex", .admin), ("comment-add", .editor), ("comment-list", .viewer),
      ("comment-get", .viewer), ("comment-notification-list", .viewer),
      ("comment-notification-read", .viewer), ("drive-members", .viewer),
      ("favorite-add", .viewer), ("favorite-remove", .viewer), ("favorite-list", .viewer),
      ("comment-update", .editor), ("comment-delete", .editor), ("comment-resolve", .editor),
      ("webhook-create", .viewer), ("webhook-list", .viewer), ("webhook-update", .viewer),
      ("webhook-delete", .viewer), ("webhook-test", .viewer), ("webhook-deliveries", .viewer),
      ("webhook-redeliver", .viewer)]

def getRequiredRole (opName : String) : Role :=
  (opRoles.lookup opName).getD .admin

def Role.text : Role → String
  | .viewer => "viewer"
  | .editor => "editor"
  | .admin => "admin"

def getUserDriveRole (db : Directory) (userId driveId : Text) : Option Role :=
  memberRole db.driveMembers driveId userId

def requireDriveRole (db : Directory) (userId driveId : Text) (requiredRole : Role) :
    Except AccessError Role :=
  match getUserDriveRole db userId driveId with
  | none =>
      .error (.permissionDenied
        { message := "You do not have access to this drive"
          suggestion := "Request access from the drive admin" } requiredRole none)
  | some userRole =>
      if userRole.level < requiredRole.level then
        .error (.permissionDenied
          { message := "This operation requires '" ++ requiredRole.text ++
              "' role, but you have '" ++ userRole.text ++ "'"
            suggestion := if requiredRole = .editor then
                "Ask a drive admin to upgrade your role to editor"
              else "Ask a drive admin to upgrade your role" } requiredRole (some userRole))
      else .ok userRole

def requireOrgRole (db : Directory) (userId orgId : Text) (requiredRole : Role) :
    Except AccessError Role :=
  match db.orgRole userId orgId with
  | none =>
      .error (.permissionDenied
        { message := "You do not have access to this organization"
          suggestion := "Request access from an org admin" } requiredRole none)
  | some userRole =>
      if userRole.level < requiredRole.level then
        .error (.permissionDenied
          { message := "This operation requires '" ++ requiredRole.text ++
              "' role in the org, but you have '" ++ userRole.text ++ "'"
            suggestion := "Ask an org admin to upgrade your role" } requiredRole (some userRole))
      else .ok userRole

def requireDriveAdmin (db : Directory) (userId driveId : Text) : Except AccessError Role :=
  match db.drives.find? (fun d => d.id = driveId) with
  | none => .error (.notFound { message := "Drive not found: " ++ String.ofList driveId })
  | some drive =>
      let driveRole := getUserDriveRole db userId driveId
      let orgRole := db.orgRole userId drive.orgId
      if driveRole = some .admin then .ok .admin
      else if orgRole = some .admin then .ok .admin
      else .error (.permissionDenied
        { message := "This operation requires drive admin or org admin role"
          suggestion := "Ask a drive or org admin to perform this operation" } .admin
        (driveRole <|> orgRole))

/-- `assertDriveInOrg`, as the routes call it. -/
def requireDriveInOrg (db : Directory) (driveId orgId : Text) : Except AccessError DriveRow :=
  match (db.drives.find? (fun d => d.id = driveId)).filter (fun d => d.orgId = orgId) with
  | none =>
      .error (.notFound
        { message := "Drive not found in org: " ++ String.ofList driveId
          suggestion := "Check the driveId belongs to the org you are addressing" })
  | some drive => .ok drive

/-! ### `context.ts` -/

structure ResolvedContext where
  orgId : Text
  driveId : Text
  role : Role
  deriving DecidableEq, Repr

def Directory.defaultDrive (db : Directory) (orgId : Text) : Option DriveRow :=
  db.drives.find? (fun d => d.orgId = orgId ∧ d.isDefault = true)

/-- The org of the first membership of the user in a personal org. -/
def Directory.personalOrg (db : Directory) (userId : Text) : Option Text :=
  (db.orgMembers.find? (fun m =>
    m.userId = userId ∧ ∃ o ∈ db.orgs, o.id = m.scopeId ∧ o.isPersonal = true)).map (·.scopeId)

def driveNotFound (orgId : Option Text) (driveId : Text) : AccessError :=
  .notFound
    { message := "Drive not found: " ++ String.ofList driveId
      suggestion := if (given orgId).isSome then
          some "Check the driveId belongs to the org you are addressing"
        else none }

def noDefaultDrive (orgId : Text) : AccessError :=
  .notFound { message := "No default drive for org: " ++ String.ofList orgId }

def resolveContext (db : Directory) (userId : Text) (orgId driveId : Option Text) :
    Except AccessError ResolvedContext :=
  match given driveId with
  | some id =>
      match db.drives.find? (fun d => d.id = id) with
      | none => .error (driveNotFound orgId id)
      | some drive =>
          if ∃ o ∈ given orgId, drive.orgId ≠ o then .error (driveNotFound orgId id)
          else
            match getUserDriveRole db userId id with
            | none => .error (driveNotFound orgId id)
            | some role => .ok ⟨drive.orgId, id, role⟩
  | none =>
      match given orgId with
      | some org =>
          match db.defaultDrive org with
          | none => .error (noDefaultDrive org)
          | some drive =>
              match getUserDriveRole db userId drive.id with
              | none => .error (noDefaultDrive org)
              | some role => .ok ⟨org, drive.id, role⟩
      | none =>
          match db.personalOrg userId with
          | none => .error (.plain "No personal org found for user")
          | some org =>
              match db.defaultDrive org with
              | none => .error (.plain "No default drive found")
              | some drive =>
                  match getUserDriveRole db userId drive.id with
                  | none => .error (.plain "You do not have access to your default drive")
                  | some role => .ok ⟨org, drive.id, role⟩

/-! ### Routes -/

/-- What a request to an org resolves: a membership, a context, or the right to manage the
members of a drive. -/
inductive OrgRoute where
  | member
  | admin
  | ops
  | drive (driveId : Text)
  | driveMembers (driveId : Text)
  deriving DecidableEq, Repr

inductive AccessRoute where
  | org (orgId : Text) (route : OrgRoute)
  | me
  | mcp
  deriving DecidableEq, Repr

/-- The route under `/orgs/:orgId` of the segments after it. -/
def orgRoute (method : String) : List String → Option OrgRoute
  | [] => if method = "GET" then some .member else none
  | ["drives"] =>
      if method = "GET" then some .member else if method = "POST" then some .admin else none
  | ["ops"] => if method = "POST" then some .ops else none
  | "invites" :: _ => some .admin
  | "members" :: _ => some .admin
  | "drives" :: driveId :: resource :: _ =>
      if driveId = "" then none
      else if resource = "members" then some (.driveMembers driveId.toList)
      else if resource ∈ ["files", "events", "presence"] then some (.drive driveId.toList)
      else none
  | _ => none

/-- The route of a request, on the segments of its path as the router decodes them; a
parameter of a route is never empty. -/
def accessRouteOf (decode : Text → Text) (request : HttpRequest) : Option AccessRoute :=
  match (request.path.splitOn '/').map decode with
  | [[], first] => if first = "mcp".toList then some .mcp else none
  | [] :: first :: second :: rest =>
      if first = "orgs".toList ∧ second ≠ [] then
        (orgRoute request.method (rest.map String.ofList)).map (.org second)
      else if first = "auth".toList ∧ second = "me".toList ∧ rest = [] then some .me
      else none
  | _ => none

/-- What a request is given access to. -/
inductive Access where
  /-- A public path. -/
  | anyone
  | org (orgId : Text) (role : Role)
  | context (context : ResolvedContext)
  | driveAdmin (orgId driveId : Text)
  /-- `GET /auth/me`, with the default org and drive. -/
  | identity (userId email : Text) (defaults : Option (Text × Text))
  deriving DecidableEq, Repr

/-- `resolveContext`, and the check that `dispatchOp` makes. -/
def dispatchAccess (db : Directory) (userId : Text) (orgId driveId : Option Text) (op : String) :
    Except AccessError Access := do
  let resolved ← resolveContext db userId orgId driveId
  let _ ← requireDriveRole db userId resolved.driveId (getRequiredRole op)
  pure (.context resolved)

/-- The checks of the routes that manage the members of a drive. -/
def driveMembersAccess (db : Directory) (userId orgId driveId : Text) :
    Except AccessError Access := do
  let _ ← requireDriveInOrg db driveId orgId
  let _ ← requireDriveAdmin db userId driveId
  pure (.driveAdmin orgId driveId)

def orgAccess (db : Directory) (userId orgId : Text) (request : HttpRequest) :
    OrgRoute → Except AccessError Access
  | .member => ((requireOrgMember db userId orgId).map (.org orgId)).mapError .org
  | .admin => ((requireOrgAdmin db userId orgId).map (.org orgId)).mapError .org
  | .ops =>
      if request.op = "" then .error (.invalid "op is required in request body")
      else dispatchAccess db userId (some orgId) (given request.driveId <|> request.drive_id)
        request.op
  | .drive driveId => (resolveContext db userId (some orgId) (some driveId)).map .context
  | .driveMembers driveId => driveMembersAccess db userId orgId driveId

/-- `requireMemberAdmin` of the MCP tools. -/
def memberAdminAccess (db : Directory) (userId : Text) (context : ResolvedContext)
    (driveId : Option Text) : Except AccessError Access :=
  match given driveId with
  | some driveId => driveMembersAccess db userId context.orgId driveId
  | none => (requireOrgRole db userId context.orgId .admin).map (.org context.orgId)

def mcpAccess (db : Directory) (userId : Text) : McpCall → Except AccessError Access
  | .op op => dispatchAccess db userId none none op
  | .members driveId => do
      let context ← resolveContext db userId none none
      memberAdminAccess db userId context driveId

def routeAccess (db : Directory) (user : KeyHolder) (request : HttpRequest) :
    AccessRoute → Except AccessError Access
  | .org orgId route => orgAccess db user.id orgId request route
  | .mcp => mcpAccess db user.id request.call
  | .me =>
      match given user.scopeOrgId with
      | some _ => .ok (.identity user.id user.email none)
      | none =>
          match resolveContext db user.id none none with
          | .ok context =>
              .ok (.identity user.id user.email (some (context.orgId, context.driveId)))
          | .error _ => .ok (.identity user.id user.email none)

/-- What the server makes of a request before it does anything with it. -/
def resolveAccess (hash decode : Text → Text) (credentials : Credentials) (db : Directory)
    (request : HttpRequest) : Except AccessError Access := do
  match ← authMiddleware hash credentials request with
  | none => pure .anyone
  | some user =>
      match accessRouteOf decode request with
      | none => .error (.notFound { message := "404 Not Found" })
      | some route => routeAccess db user request route

end AgentFs

import Mathlib.Data.List.Find
import AgentFs.Identity.Access

/-!
# Tenant isolation

Two states that differ only in orgs and drives on which a user has no role look the same to
that user.  A request that names an org or a drive resolves to the same context or fails with
the same error in both.  Two kinds of requests tell more, but only through the error with
which they fail: the fallback to the personal org tells a missing default drive from one
without a role, and the routes that manage the members of a drive tell a drive that is
there from a missing one; for an org admin, who manages every drive of the org, they succeed.
A key that is scoped to an org resolves nothing in another one.
-/

namespace AgentFs

open Tabular
open Async

/-! ### What a user sees -/

/-- The states differ only in orgs and drives on which the user has no role. -/
structure SameFor (userId : Text) (db db' : Directory) : Prop where
  orgRoles : db.orgMembers.filter (fun m => m.userId = userId) =
    db'.orgMembers.filter (fun m => m.userId = userId)
  driveRoles : db.driveMembers.filter (fun m => m.userId = userId) =
    db'.driveMembers.filter (fun m => m.userId = userId)
  orgs : db.orgs.filter (fun o => IsMember db.orgMembers o.id userId) =
    db'.orgs.filter (fun o => IsMember db'.orgMembers o.id userId)
  drives : db.drives.filter (fun d => IsMember db.driveMembers d.id userId) =
    db'.drives.filter (fun d => IsMember db'.driveMembers d.id userId)

/-- No org has two default drives; `createOrg` alone adds one. -/
def OneDefaultDrive (db : Directory) : Prop :=
  ∀ d ∈ db.drives, ∀ e ∈ db.drives, d.isDefault = true → e.isDefault = true →
    d.orgId = e.orgId → d = e

instance (db : Directory) : Decidable (OneDefaultDrive db) :=
  inferInstanceAs (Decidable (∀ d ∈ db.drives, _))

theorem SameFor.symm {userId : Text} {db db' : Directory} (h : SameFor userId db db') :
  SameFor userId db' db
  := ⟨h.orgRoles.symm, h.driveRoles.symm, h.orgs.symm, h.drives.symm⟩

/-- Looking for a row among the rows with a property that it implies. -/
theorem find?_eq_find?_filter {α : Type} {p q : α → Bool} (hpq : ∀ a, q a = true → p a = true)
    (rows : List α) :
  rows.find? q = (rows.filter p).find? q
  := by
  rw [List.find?_filter]
  congr 1
  funext a
  cases hq : q a with
  | true => simp [hpq a hq]
  | false => simp

/-- The role of a user is in the rows of the user. -/
theorem memberRole_eq_of_filter {members members' : List Member} {userId : Text}
    (h : members.filter (fun m => m.userId = userId) =
      members'.filter (fun m => m.userId = userId)) (scopeId : Text) :
  memberRole members scopeId userId = memberRole members' scopeId userId
  := by
  have hown : ∀ m : Member, decide (m.key = (scopeId, userId)) = true →
      decide (m.userId = userId) = true := by
    intro m hm
    rw [decide_eq_true_iff] at hm ⊢
    exact congrArg Prod.snd hm
  unfold memberRole findMember
  rw [find?_eq_find?_filter hown members, find?_eq_find?_filter hown members', h]

section

variable {userId : Text} {db db' : Directory}

theorem SameFor.orgRole (h : SameFor userId db db') (orgId : Text) :
  db.orgRole userId orgId = db'.orgRole userId orgId
  := memberRole_eq_of_filter h.orgRoles orgId

theorem SameFor.driveRole (h : SameFor userId db db') (driveId : Text) :
  getUserDriveRole db userId driveId = getUserDriveRole db' userId driveId
  := memberRole_eq_of_filter h.driveRoles driveId

theorem isMember_of_driveRole {driveId : Text} {role : Role}
    (h : getUserDriveRole db userId driveId = some role) :
  IsMember db.driveMembers driveId userId
  := by
  apply findMember_isSome.mp
  obtain ⟨m, hm, -⟩ := Option.map_eq_some_iff.mp h
  rw [hm]
  rfl

/-- A drive on which the user has a role is the same in both states. -/
theorem SameFor.find_drive (h : SameFor userId db db') {driveId : Text} {role : Role}
    (hrole : getUserDriveRole db userId driveId = some role) :
  db.drives.find? (fun d => d.id = driveId) = db'.drives.find? (fun d => d.id = driveId)
  := by
  have hrole' := (h.driveRole driveId).symm.trans hrole
  have hmine : ∀ {members : List Member}, IsMember members driveId userId →
      ∀ d : DriveRow, decide (d.id = driveId) = true →
        decide (IsMember members d.id userId) = true := by
    intro members hmember d hd
    rw [decide_eq_true_iff] at hd ⊢
    rwa [hd]
  have hfind := find?_eq_find?_filter (hmine (isMember_of_driveRole hrole)) db.drives
  have hfind' := find?_eq_find?_filter (hmine (isMember_of_driveRole hrole')) db'.drives
  rw [hfind, hfind', h.drives]

/-- A default drive on which the user has a role is the default drive in both states. -/
theorem SameFor.defaultDrive (h : SameFor userId db db') (hone : OneDefaultDrive db')
    {orgId : Text} {drive : DriveRow} {role : Role} (hdrive : db.defaultDrive orgId = some drive)
    (hrole : getUserDriveRole db userId drive.id = some role) :
  db'.defaultDrive orgId = some drive
  := by
  have hprop := List.find?_some hdrive
  rw [decide_eq_true_iff] at hprop
  have hmem : drive ∈ db.drives.filter (fun d => IsMember db.driveMembers d.id userId) :=
    List.mem_filter.mpr ⟨List.mem_of_find?_eq_some hdrive,
      decide_eq_true (isMember_of_driveRole hrole)⟩
  rw [h.drives] at hmem
  have hmem' := List.mem_of_mem_filter hmem
  unfold Directory.defaultDrive
  cases hfind : db'.drives.find? (fun d => d.orgId = orgId ∧ d.isDefault = true) with
  | none => exact absurd (decide_eq_true hprop) (List.find?_eq_none.mp hfind drive hmem')
  | some other =>
      have hother := List.find?_some hfind
      rw [decide_eq_true_iff] at hother
      rw [hone other (List.mem_of_find?_eq_some hfind) drive hmem' hother.2 hprop.2
        (hother.1.trans hprop.1.symm)]

/-- The personal orgs that a user belongs to are the same in both states. -/
theorem SameFor.personal (h : SameFor userId db db') {m : Member}
    (hm : m ∈ db.orgMembers.filter (fun m => m.userId = userId))
    (hpersonal : ∃ o ∈ db.orgs, o.id = m.scopeId ∧ o.isPersonal = true) :
  ∃ o ∈ db'.orgs, o.id = m.scopeId ∧ o.isPersonal = true
  := by
  obtain ⟨o, ho, hid, hpersonal⟩ := hpersonal
  have huser := List.of_mem_filter hm
  rw [decide_eq_true_iff] at huser
  have hmember : IsMember db.orgMembers o.id userId :=
    ⟨m, List.mem_of_mem_filter hm, by rw [Member.key, huser, hid]⟩
  have ho' : o ∈ db.orgs.filter (fun o => IsMember db.orgMembers o.id userId) :=
    List.mem_filter.mpr ⟨ho, decide_eq_true hmember⟩
  rw [h.orgs] at ho'
  exact ⟨o, List.mem_of_mem_filter ho', hid, hpersonal⟩

theorem SameFor.personalOrg (h : SameFor userId db db') :
  db.personalOrg userId = db'.personalOrg userId
  := by
  have hown : ∀ db : Directory, ∀ m : Member, decide (m.userId = userId ∧
      ∃ o ∈ db.orgs, o.id = m.scopeId ∧ o.isPersonal = true) = true →
      decide (m.userId = userId) = true := by
    intro db m hm
    rw [decide_eq_true_iff] at hm ⊢
    exact hm.1
  unfold Directory.personalOrg
  rw [find?_eq_find?_filter (hown db), find?_eq_find?_filter (hown db'), ← h.orgRoles]
  congr 1
  apply List.find?_congr
  intro m hm
  rw [decide_eq_decide]
  have hm' := hm
  rw [h.orgRoles] at hm'
  constructor
  · rintro ⟨huser, hpersonal⟩
    exact ⟨huser, h.personal hm hpersonal⟩
  · rintro ⟨huser, hpersonal⟩
    exact ⟨huser, h.symm.personal hm' hpersonal⟩

/-! ### Contexts -/

/-- The default drive of an org, when the user has a role on it. -/
def Directory.defaultAccess (db : Directory) (userId orgId : Text) : Option (Text × Role) :=
  (db.defaultDrive orgId).bind (fun drive =>
    (getUserDriveRole db userId drive.id).map (fun role => (drive.id, role)))

/-- The default drive that a user has access to is the same in both states. -/
theorem SameFor.defaultAccess (h : SameFor userId db db') (hone : OneDefaultDrive db)
    (hone' : OneDefaultDrive db') (orgId : Text) :
  db.defaultAccess userId orgId = db'.defaultAccess userId orgId
  := by
  have hsome : ∀ {db db' : Directory}, SameFor userId db db' → OneDefaultDrive db' →
      ∀ access, db.defaultAccess userId orgId = some access →
        db'.defaultAccess userId orgId = some access := by
    intro db db' h hone' access haccess
    obtain ⟨drive, hdrive, haccess⟩ := Option.bind_eq_some_iff.mp haccess
    obtain ⟨role, hrole, rfl⟩ := Option.map_eq_some_iff.mp haccess
    unfold Directory.defaultAccess
    rw [h.defaultDrive hone' hdrive hrole, Option.bind_some, ← h.driveRole, hrole]
    rfl
  apply Option.ext
  intro access
  exact ⟨hsome h hone' access, hsome h.symm hone access⟩

/-- A drive on which the user has no role is not found. -/
theorem resolveContext_noRole {orgId driveId : Option Text} {id : Text}
    (hgiven : given driveId = some id) (hrole : getUserDriveRole db userId id = none) :
  resolveContext db userId orgId driveId = .error (driveNotFound orgId id)
  := by
  simp only [resolveContext, hgiven, hrole]
  split
  · rfl
  · split
    · rfl
    · rfl

theorem resolveContext_default {orgId driveId : Option Text} {org : Text}
    (hgiven : given driveId = none) (horg : given orgId = some org) :
  resolveContext db userId orgId driveId =
    match db.defaultAccess userId org with
    | some (id, role) => .ok ⟨org, id, role⟩
    | none => .error (noDefaultDrive org)
  := by
  simp only [resolveContext, hgiven, horg]
  unfold Directory.defaultAccess
  cases db.defaultDrive org with
  | none => rfl
  | some drive =>
      cases hrole : getUserDriveRole db userId drive.id with
      | none => simp [hrole]
      | some role => simp [hrole]

/-- The request names neither a drive nor an org. -/
theorem resolveContext_personal (db : Directory) (userId : Text) :
  (∃ org id role, db.personalOrg userId = some org ∧
      db.defaultAccess userId org = some (id, role) ∧
      resolveContext db userId none none = .ok ⟨org, id, role⟩) ∨
    (∀ org, db.personalOrg userId = some org → db.defaultAccess userId org = none) ∧
      ∃ message, resolveContext db userId none none = .error (.plain message)
  := by
  have hgiven : given none = none := rfl
  simp only [resolveContext, hgiven]
  cases db.personalOrg userId with
  | none =>
      right
      refine ⟨?_, _, rfl⟩
      intro org horg
      cases horg
  | some org =>
      dsimp only
      unfold Directory.defaultAccess
      cases hdrive : db.defaultDrive org with
      | none =>
          right
          refine ⟨?_, _, rfl⟩
          rintro _ ⟨⟩
          rw [hdrive]
          rfl
      | some drive =>
          dsimp only
          cases hrole : getUserDriveRole db userId drive.id with
          | none =>
              right
              refine ⟨?_, _, rfl⟩
              rintro _ ⟨⟩
              rw [hdrive, Option.bind_some, hrole]
              rfl
          | some role =>
              left
              refine ⟨org, drive.id, role, rfl, ?_, rfl⟩
              rw [hdrive, Option.bind_some, hrole]
              rfl

/-- A request that names a drive or an org resolves to the same context in both states. -/
theorem SameFor.resolveContext (h : SameFor userId db db') (hone : OneDefaultDrive db)
    (hone' : OneDefaultDrive db') {orgId driveId : Option Text}
    (hgiven : given driveId ≠ none ∨ given orgId ≠ none) :
  AgentFs.resolveContext db userId orgId driveId = AgentFs.resolveContext db' userId orgId driveId
  := by
  cases hid : given driveId with
  | some id =>
      cases hrole : getUserDriveRole db userId id with
      | none =>
          have hrole' := (h.driveRole id).symm.trans hrole
          rw [resolveContext_noRole hid hrole, resolveContext_noRole hid hrole']
      | some role => simp only [AgentFs.resolveContext, hid, h.find_drive hrole, h.driveRole id]
  | none =>
      cases horg : given orgId with
      | none =>
          obtain hgiven | hgiven := hgiven
          · exact absurd hid hgiven
          · exact absurd horg hgiven
      | some org =>
          rw [resolveContext_default hid horg, resolveContext_default hid horg,
            h.defaultAccess hone hone']

/-- The fallback to the personal org resolves to the same context in both states, or fails in
both. -/
theorem SameFor.resolveContext_personal (h : SameFor userId db db') (hone : OneDefaultDrive db)
    (hone' : OneDefaultDrive db') :
  AgentFs.resolveContext db userId none none = AgentFs.resolveContext db' userId none none ∨
    ∃ message message', AgentFs.resolveContext db userId none none = .error (.plain message) ∧
      AgentFs.resolveContext db' userId none none = .error (.plain message')
  := by
  obtain ⟨org, id, role, horg, haccess, hok⟩ | ⟨hnone, message, herror⟩ :=
    AgentFs.resolveContext_personal db userId
  · left
    obtain ⟨org', id', role', horg', haccess', hok'⟩ | ⟨hnone', -⟩ :=
      AgentFs.resolveContext_personal db' userId
    · rw [← h.personalOrg, horg] at horg'
      cases horg'
      rw [← h.defaultAccess hone hone', haccess] at haccess'
      cases haccess'
      rw [hok, hok']
    · have hcontra := hnone' org (h.personalOrg.symm.trans horg)
      rw [← h.defaultAccess hone hone', haccess] at hcontra
      cases hcontra
  · right
    obtain ⟨org', id', role', horg', haccess', hok'⟩ | ⟨-, message', herror'⟩ :=
      AgentFs.resolveContext_personal db' userId
    · have hcontra := hnone org' (h.personalOrg.trans horg')
      rw [h.defaultAccess hone hone', haccess'] at hcontra
      cases hcontra
    · exact ⟨message, message', herror, herror'⟩

/-! ### Drive members -/

/-- Without a role on a drive, only an admin of the org manages its members. -/
theorem driveMembersAccess_noRole (orgId : Text) {driveId : Text}
    (hrole : getUserDriveRole db userId driveId = none) :
  (∃ e, driveMembersAccess db userId orgId driveId = .error e) ∨
    db.orgRole userId orgId = some .admin
  := by
  by_contra hnone
  rw [not_or] at hnone
  obtain ⟨hok, hadmin⟩ := hnone
  apply hok
  unfold driveMembersAccess requireDriveInOrg
  cases hfind : (db.drives.find? (fun d => d.id = driveId)).filter (fun d => d.orgId = orgId) with
  | none => exact ⟨_, rfl⟩
  | some drive =>
      obtain ⟨hfind, horg⟩ := Option.filter_eq_some_iff.mp hfind
      rw [decide_eq_true_iff] at horg
      have hdenied : ∃ e, requireDriveAdmin db userId driveId = .error e := by
        simp only [requireDriveAdmin, hfind, hrole, horg, if_neg hadmin]
        exact ⟨_, rfl⟩
      obtain ⟨e, he⟩ := hdenied
      rw [he]
      exact ⟨e, rfl⟩

/-- A drive on which the user has a role is managed alike in both states. -/
theorem SameFor.driveMembersAccess (h : SameFor userId db db') {orgId driveId : Text} {role : Role}
    (hrole : getUserDriveRole db userId driveId = some role) :
  AgentFs.driveMembersAccess db userId orgId driveId =
    AgentFs.driveMembersAccess db' userId orgId driveId
  := by
  unfold AgentFs.driveMembersAccess requireDriveInOrg requireDriveAdmin
  simp only [h.find_drive hrole, h.driveRole driveId, h.orgRole]

/-- The outcome is the same in both states, or the user has no role on the drive, and it is
refused in both unless the user is an admin of the org. -/
def SameOrHidden (db : Directory) (userId orgId driveId : Text)
    (a b : Except AccessError Access) : Prop :=
  a = b ∨ getUserDriveRole db userId driveId = none ∧
    ((∃ e e', a = .error e ∧ b = .error e') ∨ db.orgRole userId orgId = some .admin)

theorem SameFor.driveMembersAccess_sameOrHidden (h : SameFor userId db db')
    (orgId driveId : Text) :
  SameOrHidden db userId orgId driveId (AgentFs.driveMembersAccess db userId orgId driveId)
    (AgentFs.driveMembersAccess db' userId orgId driveId)
  := by
  cases hrole : getUserDriveRole db userId driveId with
  | some role => exact .inl (h.driveMembersAccess hrole)
  | none =>
      right
      refine ⟨hrole, ?_⟩
      have hrole' := (h.driveRole driveId).symm.trans hrole
      obtain ⟨e, he⟩ | hadmin := driveMembersAccess_noRole orgId hrole
      · obtain ⟨e', he'⟩ | hadmin := driveMembersAccess_noRole orgId hrole'
        · exact .inl ⟨e, e', he, he'⟩
        · rw [← h.orgRole] at hadmin
          exact .inr hadmin
      · exact .inr hadmin

/-! ### Routes -/

theorem SameFor.requireDriveRole (h : SameFor userId db db') (driveId : Text) (role : Role) :
  AgentFs.requireDriveRole db userId driveId role = AgentFs.requireDriveRole db' userId driveId role
  := by
  unfold AgentFs.requireDriveRole
  rw [h.driveRole]

theorem SameFor.requireOrgMember (h : SameFor userId db db') (orgId : Text) :
  AgentFs.requireOrgMember db userId orgId = AgentFs.requireOrgMember db' userId orgId
  := by
  unfold AgentFs.requireOrgMember
  rw [h.orgRole]

theorem SameFor.requireOrgAdmin (h : SameFor userId db db') (orgId : Text) :
  AgentFs.requireOrgAdmin db userId orgId = AgentFs.requireOrgAdmin db' userId orgId
  := by
  unfold AgentFs.requireOrgAdmin
  rw [h.requireOrgMember]

/-- An op on a context that is the same in both states. -/
theorem SameFor.dispatchAccess (h : SameFor userId db db') {orgId driveId : Option Text}
    (hsame : AgentFs.resolveContext db userId orgId driveId =
      AgentFs.resolveContext db' userId orgId driveId) (op : String) :
  AgentFs.dispatchAccess db userId orgId driveId op =
    AgentFs.dispatchAccess db' userId orgId driveId op
  := by
  unfold AgentFs.dispatchAccess
  rw [hsame]
  congr 1
  funext resolved
  rw [h.requireDriveRole]

/-- A request to an org. -/
theorem SameFor.orgAccess (h : SameFor userId db db') (hone : OneDefaultDrive db)
    (hone' : OneDefaultDrive db') {orgId : Text} (horg : orgId ≠ []) (request : HttpRequest)
    (route : OrgRoute) :
  AgentFs.orgAccess db userId orgId request route =
      AgentFs.orgAccess db' userId orgId request route ∨
    ∃ driveId, route = .driveMembers driveId ∧
      SameOrHidden db userId orgId driveId (AgentFs.orgAccess db userId orgId request route)
        (AgentFs.orgAccess db' userId orgId request route)
  := by
  have hgiven : given (some orgId) ≠ none := by
    simp [given, horg]
  cases route with
  | member =>
      left
      unfold AgentFs.orgAccess
      rw [h.requireOrgMember]
  | admin =>
      left
      unfold AgentFs.orgAccess
      rw [h.requireOrgAdmin]
  | ops =>
      left
      unfold AgentFs.orgAccess
      dsimp only
      rw [h.dispatchAccess (h.resolveContext hone hone' (.inr hgiven))]
  | drive driveId =>
      left
      unfold AgentFs.orgAccess
      dsimp only
      rw [h.resolveContext hone hone' (.inr hgiven)]
  | driveMembers driveId =>
      right
      exact ⟨driveId, rfl, h.driveMembersAccess_sameOrHidden orgId driveId⟩

end

/-! ### Requests -/

/-- The request manages the members of the drive in the org. -/
def ManagesDrive (decode : Text → Text) (db : Directory) (userId : Text) (request : HttpRequest)
    (orgId driveId : Text) : Prop :=
  accessRouteOf decode request = some (.org orgId (.driveMembers driveId)) ∨
    accessRouteOf decode request = some .mcp ∧ request.call = .members (some driveId) ∧
      ∃ context, resolveContext db userId none none = .ok context ∧ context.orgId = orgId

/-- What two states that look the same to the caller make of a request: the same, unless the
request falls back to the personal org and fails in both, or manages a drive on which the
caller has no role. -/
inductive SameOutcome (decode : Text → Text) (db : Directory) (userId : Text)
    (request : HttpRequest) (a b : Except AccessError Access) : Prop where
  | same (h : a = b)
  | fallback (route : accessRouteOf decode request = some .mcp) (e e' : String)
      (h : a = .error (.plain e)) (h' : b = .error (.plain e'))
  | hidden (orgId driveId : Text) (manages : ManagesDrive decode db userId request orgId driveId)
      (noRole : getUserDriveRole db userId driveId = none)
      (h : (∃ e e', a = .error e ∧ b = .error e') ∨ db.orgRole userId orgId = some .admin)

section

variable {userId : Text} {db db' : Directory}

theorem SameFor.mcpAccess (h : SameFor userId db db') (hone : OneDefaultDrive db)
    (hone' : OneDefaultDrive db') (decode : Text → Text) {request : HttpRequest}
    (hroute : accessRouteOf decode request = some .mcp) :
  SameOutcome decode db userId request (AgentFs.mcpAccess db userId request.call)
    (AgentFs.mcpAccess db' userId request.call)
  := by
  obtain hsame | ⟨message, message', herror, herror'⟩ := h.resolveContext_personal hone hone'
  · cases hcall : request.call with
    | op op => exact .same (h.dispatchAccess hsame op)
    | members driveId =>
        unfold AgentFs.mcpAccess
        cases hcontext : AgentFs.resolveContext db userId none none with
        | error e =>
            rw [← hsame, hcontext]
            exact .same rfl
        | ok context =>
            rw [← hsame, hcontext]
            show SameOutcome decode db userId request
              (memberAdminAccess db userId context driveId)
              (memberAdminAccess db' userId context driveId)
            unfold memberAdminAccess
            cases hgiven : given driveId with
            | none =>
                apply SameOutcome.same
                unfold requireOrgRole
                rw [h.orgRole]
            | some id =>
                dsimp only
                have hid : driveId = some id := (Option.filter_eq_some_iff.mp hgiven).1
                obtain heq | ⟨hrole, houtcome⟩ :=
                  h.driveMembersAccess_sameOrHidden context.orgId id
                · exact .same heq
                · refine .hidden context.orgId id (.inr ⟨hroute, ?_, context, hcontext, rfl⟩)
                    hrole houtcome
                  rw [hcall, hid]
  · have hfails : ∀ call, AgentFs.mcpAccess db userId call = .error (.plain message) ∧
        AgentFs.mcpAccess db' userId call = .error (.plain message') := by
      intro call
      cases call with
      | op op =>
          unfold AgentFs.mcpAccess AgentFs.dispatchAccess
          rw [herror, herror']
          exact ⟨rfl, rfl⟩
      | members driveId =>
          unfold AgentFs.mcpAccess
          rw [herror, herror']
          exact ⟨rfl, rfl⟩
    obtain ⟨hfail, hfail'⟩ := hfails request.call
    exact .fallback hroute message message' hfail hfail'

/-- `GET /auth/me` does not say why it has no defaults. -/
theorem SameFor.meAccess {user : KeyHolder} (h : SameFor user.id db db')
    (hone : OneDefaultDrive db) (hone' : OneDefaultDrive db') (request : HttpRequest) :
  routeAccess db user request .me = routeAccess db' user request .me
  := by
  unfold routeAccess
  dsimp only
  cases given user.scopeOrgId with
  | some scope => rfl
  | none =>
      obtain hsame | ⟨message, message', herror, herror'⟩ := h.resolveContext_personal hone hone'
      · rw [hsame]
      · rw [herror, herror']

/-- A route under `/orgs/:orgId` names an org. -/
theorem accessRouteOf_org {decode : Text → Text} {request : HttpRequest} {orgId : Text}
    {route : OrgRoute} (h : accessRouteOf decode request = some (.org orgId route)) :
  orgId ≠ []
  := by
  unfold accessRouteOf at h
  split at h
  · split_ifs at h
    cases h
  · split_ifs at h with hsecond
    · obtain ⟨_, _, hroute⟩ := Option.map_eq_some_iff.mp h
      cases hroute
      exact hsecond.2
    · cases h
  · cases h

/-- Two states that look the same to the caller make the same of a request. -/
theorem SameFor.resolveAccess {user : KeyHolder} (h : SameFor user.id db db')
    (hone : OneDefaultDrive db) (hone' : OneDefaultDrive db') {hash : Text → Text}
    (decode : Text → Text) {credentials : Credentials} {request : HttpRequest}
    (hauth : authMiddleware hash credentials request = .ok (some user)) :
  SameOutcome decode db user.id request
    (AgentFs.resolveAccess hash decode credentials db request)
    (AgentFs.resolveAccess hash decode credentials db' request)
  := by
  unfold AgentFs.resolveAccess
  rw [hauth]
  cases hroute : accessRouteOf decode request with
  | none => exact .same rfl
  | some route =>
      change SameOutcome decode db user.id request (routeAccess db user request route)
        (routeAccess db' user request route)
      cases route with
      | me => exact .same (h.meAccess hone hone' request)
      | mcp => exact h.mcpAccess hone hone' decode hroute
      | org orgId route =>
          obtain hsame | ⟨driveId, rfl, hsame | ⟨hrole, houtcome⟩⟩ :=
            h.orgAccess hone hone' (accessRouteOf_org hroute) request route
          · exact .same hsame
          · exact .same hsame
          · exact .hidden orgId driveId (.inl hroute) hrole houtcome

/-- A request without a key, or with a wrong one, does not read the directory. -/
theorem resolveAccess_nobody {hash : Text → Text} (decode : Text → Text)
    {credentials : Credentials} {request : HttpRequest}
    (hauth : ∀ user, authMiddleware hash credentials request ≠ .ok (some user))
    (db db' : Directory) :
  resolveAccess hash decode credentials db request =
    resolveAccess hash decode credentials db' request
  := by
  unfold resolveAccess
  cases hcase : authMiddleware hash credentials request with
  | error e => rfl
  | ok holder =>
      cases holder with
      | none => rfl
      | some user => exact absurd hcase (hauth user)

end

/-! ### Keys that are scoped to an org -/

/-- The access reaches the org only, and there only drives of the org. -/
def Access.Within (db : Directory) (scope : Text) : Access → Prop
  | .anyone => True
  | .org orgId _ => orgId = scope
  | .context resolved =>
      resolved.orgId = scope ∧ ∃ d ∈ db.drives, d.id = resolved.driveId ∧ d.orgId = scope
  | .driveAdmin orgId driveId =>
      orgId = scope ∧ ∃ d ∈ db.drives, d.id = driveId ∧ d.orgId = scope
  | .identity _ _ defaults => ∀ default ∈ defaults, default.1 = scope

/-- Paths that a scoped key opens name its org, or are `/auth/me`. -/
theorem accessRouteOf_scoped {decode : Text → Text} (hdecode : ∀ t, '%' ∉ t → decode t = t)
    {request : HttpRequest} {scope : Text} (hscope : '%' ∉ scope)
    (hallows : scopedKeyAllows request.path scope request.method) {route : AccessRoute}
    (hroute : accessRouteOf decode request = some route) :
  route = .me ∨ ∃ orgRoute, route = .org scope orgRoute
  := by
  have horgs : decode "orgs".toList = "orgs".toList := hdecode _ (by decide)
  have hauth : decode "auth".toList = "auth".toList := hdecode _ (by decide)
  have hme : decode "me".toList = "me".toList := hdecode _ (by decide)
  have hempty : decode [] = [] := hdecode _ (by decide)
  obtain ⟨hpath, -⟩ | ⟨-, -, hfirst, hsecond⟩ := hallows
  · left
    have hsegments : request.path.splitOn '/' = [[], "auth".toList, "me".toList] := by
      rw [hpath]
      decide
    have horgs : "auth".toList ≠ "orgs".toList := by decide
    simp only [accessRouteOf, hsegments, List.map_cons, List.map_nil, hempty, hauth, hme] at hroute
    rw [if_neg (fun h => horgs h.1), if_pos ⟨trivial, trivial, trivial⟩] at hroute
    cases hroute
    rfl
  · right
    unfold accessRouteOf at hroute
    cases hsegments : request.path.splitOn '/' with
    | nil => simp [hsegments] at hfirst
    | cons zeroth rest =>
        rw [hsegments] at hfirst hsecond hroute
        cases rest with
        | nil => simp at hfirst
        | cons first rest =>
            cases rest with
            | nil => simp at hsecond
            | cons second rest =>
                simp only [List.getElem?_cons_succ, List.getElem?_cons_zero, Option.some_inj]
                  at hfirst hsecond
                subst hfirst hsecond
                simp only [List.map_cons, horgs, hdecode _ hscope] at hroute
                cases hzeroth : decode zeroth with
                | cons c t => simp [hzeroth] at hroute
                | nil =>
                    simp only [hzeroth] at hroute
                    split_ifs at hroute
                    · obtain ⟨orgRoute, -, rfl⟩ := Option.map_eq_some_iff.mp hroute
                      exact ⟨orgRoute, rfl⟩
                    · rename_i hother
                      exact absurd hother.1 (by decide)

section

variable {db : Directory} {userId : Text}

/-- A context is resolved on a drive of its org, and in the org that the caller names. -/
theorem resolveContext_within {orgId driveId : Option Text} {context : ResolvedContext}
    (h : resolveContext db userId orgId driveId = .ok context) {scope : Text}
    (hgiven : given orgId = some scope) :
  (Access.context context).Within db scope
  := by
  cases hid : given driveId with
  | none =>
      rw [resolveContext_default hid hgiven] at h
      unfold Directory.defaultAccess at h
      cases hdrive : db.defaultDrive scope with
      | none =>
          rw [hdrive] at h
          cases h
      | some drive =>
          rw [hdrive, Option.bind_some] at h
          cases hrole : getUserDriveRole db userId drive.id with
          | none =>
              rw [hrole] at h
              cases h
          | some role =>
              rw [hrole] at h
              cases h
              have hprop := List.find?_some hdrive
              rw [decide_eq_true_iff] at hprop
              exact ⟨rfl, drive, List.mem_of_find?_eq_some hdrive, rfl, hprop.1⟩
  | some id =>
      simp only [resolveContext, hid, hgiven] at h
      split at h
      · cases h
      · rename_i drive hfind
        have hdrive := List.find?_some hfind
        rw [decide_eq_true_iff] at hdrive
        split_ifs at h with hother
        · split at h
          · cases h
          · cases h
            have horg : drive.orgId = scope := by
              by_contra hne
              exact hother ⟨scope, rfl, hne⟩
            exact ⟨horg, drive, List.mem_of_find?_eq_some hfind, hdrive, horg⟩

theorem dispatchAccess_within {orgId driveId : Option Text} {op : String} {access : Access}
    (h : dispatchAccess db userId orgId driveId op = .ok access) {scope : Text}
    (hgiven : given orgId = some scope) :
  access.Within db scope
  := by
  obtain ⟨context, hcontext, h⟩ := bind_eq_ok_iff.mp h
  obtain ⟨role, -, h⟩ := bind_eq_ok_iff.mp h
  cases h
  exact resolveContext_within hcontext hgiven

theorem driveMembersAccess_within {orgId driveId : Text} {access : Access}
    (h : driveMembersAccess db userId orgId driveId = .ok access) :
  access.Within db orgId
  := by
  obtain ⟨drive, hdrive, h⟩ := bind_eq_ok_iff.mp h
  obtain ⟨role, -, h⟩ := bind_eq_ok_iff.mp h
  cases h
  unfold requireDriveInOrg at hdrive
  split at hdrive
  · cases hdrive
  · rename_i found hfound
    obtain ⟨hfind, horg⟩ := Option.filter_eq_some_iff.mp hfound
    have hid := List.find?_some hfind
    rw [decide_eq_true_iff] at hid horg
    exact ⟨rfl, found, List.mem_of_find?_eq_some hfind, hid, horg⟩

theorem orgAccess_within {orgId : Text} (horg : orgId ≠ []) {request : HttpRequest}
    {route : OrgRoute} {access : Access}
    (h : orgAccess db userId orgId request route = .ok access) :
  access.Within db orgId
  := by
  have hgiven : given (some orgId) = some orgId := by
    simp [given, horg]
  cases route with
  | member =>
      unfold orgAccess at h
      cases hrole : requireOrgMember db userId orgId with
      | error e =>
          rw [hrole] at h
          cases h
      | ok role =>
          rw [hrole] at h
          cases h
          rfl
  | admin =>
      unfold orgAccess at h
      cases hrole : requireOrgAdmin db userId orgId with
      | error e =>
          rw [hrole] at h
          cases h
      | ok role =>
          rw [hrole] at h
          cases h
          rfl
  | ops =>
      unfold orgAccess at h
      dsimp only at h
      split_ifs at h
      exact dispatchAccess_within h hgiven
  | drive driveId =>
      unfold orgAccess at h
      dsimp only at h
      cases hcontext : resolveContext db userId (some orgId) (some driveId) with
      | error e =>
          rw [hcontext] at h
          cases h
      | ok context =>
          rw [hcontext] at h
          cases h
          exact resolveContext_within hcontext hgiven
  | driveMembers driveId => exact driveMembersAccess_within h

end

/-- A key that is scoped to an org opens the paths under it only. -/
theorem authMiddleware_scoped {hash : Text → Text} {credentials : Credentials}
    {request : HttpRequest} {user : KeyHolder} {scope : Text}
    (h : authMiddleware hash credentials request = .ok (some user))
    (hscope : given user.scopeOrgId = some scope) :
  scopedKeyAllows request.path scope request.method
  := by
  unfold authMiddleware at h
  split_ifs at h
  · cases h
  · split at h
    · cases h
    · split at h
      · cases h
      · split at h
        · rename_i hnone
          cases h
          rw [hscope] at hnone
          cases hnone
        · rename_i scopeOrgId hsome
          split_ifs at h with hallows
          cases h
          rw [hscope] at hsome
          cases hsome
          exact hallows

/-- A key that is scoped to an org gives access to nothing outside it. -/
theorem resolveAccess_within {hash decode : Text → Text}
    (hdecode : ∀ t, '%' ∉ t → decode t = t) {credentials : Credentials} {db : Directory}
    {request : HttpRequest} {user : KeyHolder} {scope : Text} {access : Access}
    (hauth : authMiddleware hash credentials request = .ok (some user))
    (hscope : given user.scopeOrgId = some scope) (hplain : '%' ∉ scope)
    (h : resolveAccess hash decode credentials db request = .ok access) :
  access.Within db scope
  := by
  have hallows := authMiddleware_scoped hauth hscope
  unfold resolveAccess at h
  cases hroute : accessRouteOf decode request with
  | none =>
      rw [hauth, hroute] at h
      cases h
  | some route =>
      rw [hauth, hroute] at h
      change routeAccess db user request route = _ at h
      obtain rfl | ⟨orgRoute, rfl⟩ := accessRouteOf_scoped hdecode hplain hallows hroute
      · simp only [routeAccess, hscope] at h
        cases h
        rintro default ⟨⟩
      · exact orgAccess_within (accessRouteOf_org hroute) h

/-- The org `o` of `a`, with a default drive, and the org `p` of `b`, with some drives. -/
def sampleTenants (drives : List DriveRow) : Directory where
  users := []
  orgs := [⟨"o".toList, "o".toList, true⟩, ⟨"p".toList, "p".toList, false⟩]
  orgMembers := [⟨"o".toList, "a".toList, .admin⟩, ⟨"p".toList, "b".toList, .admin⟩]
  drives := ⟨"d".toList, "o".toList, "default".toList, true⟩ :: drives
  driveMembers := ⟨"d".toList, "a".toList, .admin⟩ ::
    drives.map (fun d => ⟨d.id, "b".toList, .admin⟩)
  invites := []
  apiKeys := []

/-- A drive of the org `p`. -/
def sampleDrive : DriveRow := ⟨"e".toList, "p".toList, "default".toList, true⟩

/-- The primary key of `a`, and a key that is scoped to the org `o`. -/
def sampleCredentials : Credentials where
  users := [⟨"a".toList, "a@x.io".toList, "primary-key".toList⟩]
  keys := [⟨"k".toList, "a".toList, "scoped-key".toList, some "o".toList, none⟩]

/-- A request of the members of a drive. -/
def sampleMembersRequest (key path : String) : HttpRequest where
  method := "GET"
  path := path.toList
  authorization := some ("Bearer " ++ key).toList

/-- The caller of the sample request. -/
theorem sampleCaller {key path : String} {user : KeyHolder} {scope : Option Text} {keyId : Text}
    (h : authMiddleware (fun t => t) sampleCredentials (sampleMembersRequest key path) =
      .ok (some ⟨"a".toList, "a@x.io".toList, scope, keyId⟩))
    (huser : authMiddleware (fun t => t) sampleCredentials (sampleMembersRequest key path) =
      .ok (some user)) :
  user.id = "a".toList
  := by
  rw [h] at huser
  cases huser
  rfl

end AgentFs

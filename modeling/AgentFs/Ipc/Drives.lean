import AgentFs.Identity.Access
import AgentFs.Fuse.Inodes

/-!
# The drives of a mount

The root of a mount lists the drives of the user by their names, and every request names its
drive in that way.  The daemon (`ipc/handlers.ts`) and the HTTP transport of the file system
helper (`ipc.rs`) list the drives and resolve the names on their own.
-/

namespace AgentFs

open Tabular

/-! ### Listing -/

/-- A row of `listUserOrgs`. -/
structure UserOrg where
  id : Text
  name : Text
  role : Role
  isPersonal : Bool
  deriving DecidableEq, Repr

def listUserOrgs (db : Directory) (userId : Text) : List UserOrg :=
  (db.orgMembers.filter (fun m => m.userId = userId)).flatMap (fun m =>
    (db.orgs.filter (fun o => o.id = m.scopeId)).map (fun o =>
      ⟨m.scopeId, o.name, m.role, o.isPersonal⟩))

/-- A row of `listDrivesForUser`. -/
structure UserDrive where
  id : Text
  name : Text
  isDefault : Bool
  deriving DecidableEq, Repr

def listDrivesForUser (db : Directory) (orgId userId : Text) : List UserDrive :=
  (db.drives.filter (fun d => d.orgId = orgId)).flatMap (fun d =>
    (db.driveMembers.filter (fun m => m.key = (d.id, userId))).map (fun _ =>
      ⟨d.id, d.name, d.isDefault⟩))

def UserDrive.info (d : UserDrive) (orgId : Text) : DriveInfo :=
  ⟨d.name, d.id, orgId⟩

/-! ### The daemon -/

/-- The answer to `list_drives`. -/
def daemonListDrives (db : Directory) (userId : Text) : List DriveInfo :=
  (listUserOrgs db userId).flatMap (fun org =>
    (listDrivesForUser db org.id userId).map (fun d => d.info org.id))

/-- `resolveDrive`: the org and the drive of an id or a name. -/
def resolveDrive (db : Directory) (userId driveRef : Text) : Except AccessError (Text × Text) :=
  match resolveContext db userId none (some driveRef) with
  | .ok resolved => .ok (resolved.orgId, resolved.driveId)
  | .error _ =>
      match (listUserOrgs db userId).findSome? (fun org =>
          ((listDrivesForUser db org.id userId).find? (fun d => d.name = driveRef)).map
            (fun d => (org.id, d.id))) with
      | some found => .ok found
      | none => .error (.notFound { message := "Drive not found: " ++ String.ofList driveRef })

/-! ### The HTTP transport -/

/-- `DriveTable`. -/
structure DriveTable where
  /-- The drive and the org of a slug. -/
  bySlug : OrderedMap Text (Text × Text)
  all : List DriveInfo
  deriving DecidableEq

def DriveTable.add (table : DriveTable) (d : DriveInfo) : DriveTable where
  bySlug := table.bySlug.set d.slug (d.id, d.orgId)
  all := table.all ++ [d]

/-- `GET /orgs/:orgId/drives`. -/
def orgDrives (db : Directory) (userId orgId : Text) : Except RouteError (List UserDrive) :=
  (requireOrgMember db userId orgId).map (fun _ => listDrivesForUser db orgId userId)

/-- `ensure_drive_table`; an org of which the drives are refused is skipped. -/
def ensureDriveTable (db : Directory) (userId : Text) : DriveTable :=
  (listUserOrgs db userId).foldl (fun table org =>
    match orgDrives db userId org.id with
    | .error _ => table
    | .ok drives => drives.foldl (fun table d => table.add (d.info org.id)) table)
    ⟨OrderedMap.empty, []⟩

/-- `resolve_drive`: the org and the drive of a slug. -/
def DriveTable.resolveDrive (table : DriveTable) (slug : Text) : Option (Text × Text) :=
  (table.bySlug.get slug).map (fun entry => (entry.2, entry.1))

/-! ### What is listed -/

/-- A drive that the user can see. -/
structure VisibleDrive (db : Directory) (userId : Text) (d : DriveRow) : Prop where
  drive : d ∈ db.drives
  driveMember : IsMember db.driveMembers d.id userId
  orgMember : IsMember db.orgMembers d.orgId userId
  org : ∃ o ∈ db.orgs, o.id = d.orgId

def DriveRow.info (d : DriveRow) : DriveInfo :=
  ⟨d.name, d.id, d.orgId⟩

section

variable {db : Directory} {userId : Text}

theorem mem_daemonListDrives {info : DriveInfo} :
  info ∈ daemonListDrives db userId ↔ ∃ d, VisibleDrive db userId d ∧ d.info = info
  := by
  unfold daemonListDrives listUserOrgs listDrivesForUser
  simp only [List.mem_flatMap, List.mem_map, List.mem_filter, decide_eq_true_eq]
  constructor
  · rintro ⟨org, ⟨m, ⟨hm, huser⟩, o, ⟨ho, horg⟩, rfl⟩, drive, ⟨d, ⟨hd, hdorg⟩, dm, ⟨hdm, hkey⟩, rfl⟩,
      rfl⟩
    refine ⟨d, ⟨hd, ⟨dm, hdm, hkey⟩, ⟨m, hm, ?_⟩, o, ho, horg.trans hdorg.symm⟩, ?_⟩
    · exact Prod.ext hdorg.symm huser
    · exact congrArg _ hdorg
  · rintro ⟨d, ⟨hd, ⟨dm, hdm, hkey⟩, ⟨m, hm, hmkey⟩, o, ho, horg⟩, rfl⟩
    obtain ⟨hscope, huser⟩ := Prod.mk.injEq _ _ _ _ ▸ hmkey
    exact ⟨_, ⟨m, ⟨hm, huser⟩, o, ⟨ho, horg.trans hscope.symm⟩, rfl⟩, _,
      ⟨d, ⟨hd, hscope.symm⟩, dm, ⟨hdm, hkey⟩, rfl⟩, congrArg (DriveInfo.mk d.name d.id) hscope⟩

/-- The daemon resolves a slug that is no id to the first drive of the list with that name. -/
theorem resolveDrive_of_error {slug : Text} {e : AccessError}
    (h : resolveContext db userId none (some slug) = .error e) :
  resolveDrive db userId slug =
    match (daemonListDrives db userId).find? (fun d => d.slug = slug) with
    | some d => .ok (d.orgId, d.id)
    | none => .error (.notFound { message := "Drive not found: " ++ String.ofList slug })
  := by
  have hfind : (listUserOrgs db userId).findSome? (fun org =>
      ((listDrivesForUser db org.id userId).find? (fun d => d.name = slug)).map
        (fun d => (org.id, d.id))) =
      ((daemonListDrives db userId).find? (fun d => d.slug = slug)).map
        (fun d => (d.orgId, d.id)) := by
    unfold daemonListDrives
    rw [List.find?_flatMap, List.map_findSome?]
    congr 1
    funext org
    rw [Function.comp_apply, List.find?_map, Option.map_map]
    rfl
  unfold resolveDrive
  rw [h, hfind]
  cases (daemonListDrives db userId).find? (fun d => d.slug = slug) <;> rfl

theorem requireOrgMember_of_mem {org : UserOrg} (h : org ∈ listUserOrgs db userId) :
  ∃ role, requireOrgMember db userId org.id = .ok role
  := by
  unfold listUserOrgs at h
  simp only [List.mem_flatMap, List.mem_map, List.mem_filter, decide_eq_true_eq] at h
  obtain ⟨m, ⟨hm, huser⟩, o, -, rfl⟩ := h
  have hsome : (findMember db.orgMembers m.scopeId userId).isSome :=
    findMember_isSome.mpr ⟨m, hm, Prod.ext rfl huser⟩
  obtain ⟨found, hfound⟩ := Option.isSome_iff_exists.mp hsome
  use found.role
  unfold requireOrgMember Directory.orgRole
  rw [hfound]
  rfl

/-- The table of the HTTP transport is made of the drives that the daemon lists. -/
theorem ensureDriveTable_eq :
  ensureDriveTable db userId =
    (daemonListDrives db userId).foldl DriveTable.add ⟨OrderedMap.empty, []⟩
  := by
  unfold ensureDriveTable daemonListDrives
  rw [List.foldl_flatMap]
  apply List.foldl_ext
  intro table org horg
  obtain ⟨role, hrole⟩ := requireOrgMember_of_mem horg
  unfold orgDrives
  rw [hrole, List.foldl_map]
  rfl

theorem DriveTable.all_foldl (table : DriveTable) (infos : List DriveInfo) :
  (infos.foldl DriveTable.add table).all = table.all ++ infos
  := by
  induction infos generalizing table with
  | nil => simp
  | cons info infos ih =>
      rw [List.foldl_cons, ih]
      unfold add
      simp

theorem ensureDriveTable_all (db : Directory) (userId : Text) :
  (ensureDriveTable db userId).all = daemonListDrives db userId
  := by
  rw [ensureDriveTable_eq, DriveTable.all_foldl, List.nil_append]

/-- A slug of the table is that of a drive that was added. -/
theorem DriveTable.mem_of_bySlug {table : DriveTable} {infos : List DriveInfo} {slug : Text}
    {entry : Text × Text} (h : (infos.foldl DriveTable.add table).bySlug.get slug = some entry) :
  (∃ d ∈ infos, d.slug = slug ∧ (d.id, d.orgId) = entry) ∨ table.bySlug.get slug = some entry
  := by
  induction infos generalizing table with
  | nil => exact .inr h
  | cons info infos ih =>
      rw [List.foldl_cons] at h
      rcases ih h with ⟨d, hd, hslug⟩ | hadd
      · exact .inl ⟨d, List.mem_cons_of_mem _ hd, hslug⟩
      · unfold add at hadd
        dsimp only at hadd
        rw [OrderedMap.get_set] at hadd
        by_cases hslug : slug = info.slug
        · rw [if_pos hslug, Option.some.injEq] at hadd
          exact .inl ⟨info, List.mem_cons_self, hslug.symm, hadd⟩
        · rw [if_neg hslug] at hadd
          exact .inr hadd

/-- A slug that is added stays. -/
theorem DriveTable.bySlug_isSome {table : DriveTable} {infos : List DriveInfo} {slug : Text}
    (h : (∃ d ∈ infos, d.slug = slug) ∨ (table.bySlug.get slug).isSome) :
  ((infos.foldl DriveTable.add table).bySlug.get slug).isSome
  := by
  induction infos generalizing table with
  | nil =>
      rcases h with ⟨d, hd, -⟩ | h
      · exact absurd hd List.not_mem_nil
      · exact h
  | cons info infos ih =>
      rw [List.foldl_cons]
      apply ih
      unfold add
      dsimp only
      rw [OrderedMap.get_set]
      by_cases hslug : slug = info.slug
      · right
        rw [if_pos hslug]
        rfl
      · rw [if_neg hslug]
        rcases h with ⟨d, hd, rfl⟩ | h
        · rcases List.mem_cons.mp hd with rfl | hd
          · exact absurd rfl hslug
          · exact .inl ⟨d, hd, rfl⟩
        · exact .inr h

end

/-! ### Addressing -/

/-- Every drive that is listed at the root of a mount is addressed by its slug. -/
structure SlugsAddress (db : Directory) (userId : Text) : Prop where
  /-- Different drives have different slugs. -/
  distinct : ∀ d ∈ daemonListDrives db userId, ∀ e ∈ daemonListDrives db userId,
    d ≠ e → d.slug ≠ e.slug
  /-- The two transports list the same drives. -/
  listed : (ensureDriveTable db userId).all = daemonListDrives db userId
  /-- In the root of a mount, the slug is the name of a directory of the drive with that slug. -/
  lookup : ∀ d ∈ daemonListDrives db userId, ∀ calls, ∃ node,
    ((InodeTable.run calls).resolveChild rootInode d.slug
      (.drives (daemonListDrives db userId))).1 = .ok node ∧ node.kind = .dir ∧
      node.drive = d.slug ∧ node.path = ['/']
  /-- The daemon resolves the slug to the drive. -/
  daemon : ∀ d ∈ daemonListDrives db userId, resolveDrive db userId d.slug = .ok (d.orgId, d.id)
  /-- The HTTP transport resolves the slug to the drive. -/
  http : ∀ d ∈ daemonListDrives db userId,
    (ensureDriveTable db userId).resolveDrive d.slug = some (d.orgId, d.id)

/-- The names of the drives that the user can see are different; none is `current`, or the id of
another drive of the user; and a drive without a name is the one that the user has by default. -/
structure NamesAddress (db : Directory) (userId : Text) : Prop where
  distinct : ∀ d e, VisibleDrive db userId d → VisibleDrive db userId e → d.name = e.name →
    d.id = e.id
  current : ∀ d, VisibleDrive db userId d → d.name ≠ "current".toList
  ids : ∀ d, VisibleDrive db userId d → d.name ≠ [] → ∀ e ∈ db.drives,
    IsMember db.driveMembers e.id userId → e.id = d.name → e.id = d.id
  unnamed : ∀ d, VisibleDrive db userId d → d.name = [] → ∀ org e,
    db.personalOrg userId = some org → db.defaultDrive org = some e →
    IsMember db.driveMembers e.id userId → e.id = d.id

section

variable {db : Directory} {userId : Text}

/-- The daemon takes the name for the drive: its id, or no id at all. -/
def TakenFor (db : Directory) (userId slug : Text) (e : DriveRow) : Prop :=
  e ∈ db.drives ∧ IsMember db.driveMembers e.id userId ∧
    (slug ≠ [] ∧ e.id = slug ∨
      slug = [] ∧ ∃ org, db.personalOrg userId = some org ∧ db.defaultDrive org = some e)

theorem given_some {slug : Text} (h : slug ≠ []) :
  given (some slug) = some slug
  := by
  unfold given
  rw [Option.filter_some, if_pos (decide_eq_true h)]

theorem resolveContext_ok {slug : Text} {context : ResolvedContext}
    (h : resolveContext db userId none (some slug) = .ok context) :
  ∃ e, TakenFor db userId slug e ∧ context.orgId = e.orgId ∧ context.driveId = e.id
  := by
  have hmember : ∀ {id role}, getUserDriveRole db userId id = some role →
      IsMember db.driveMembers id userId := by
    intro id role hrole
    apply findMember_isSome.mp
    obtain ⟨m, hm, -⟩ := Option.map_eq_some_iff.mp hrole
    rw [hm]
    rfl
  by_cases hslug : slug = []
  · subst hslug
    unfold resolveContext at h
    simp only [show given (some []) = none from rfl, show given none = none from rfl] at h
    cases horg : db.personalOrg userId with
    | none => simp [horg] at h
    | some org =>
        cases hdrive : db.defaultDrive org with
        | none => simp [horg, hdrive] at h
        | some e =>
            cases hrole : getUserDriveRole db userId e.id with
            | none => simp [horg, hdrive, hrole] at h
            | some role =>
                simp only [horg, hdrive, hrole, Except.ok.injEq] at h
                subst h
                have hprop := List.find?_some hdrive
                rw [decide_eq_true_iff] at hprop
                exact ⟨e, ⟨List.mem_of_find?_eq_some hdrive, hmember hrole,
                  .inr ⟨rfl, org, horg, hdrive⟩⟩, hprop.1.symm, rfl⟩
  · unfold resolveContext at h
    simp only [given_some hslug] at h
    cases hfind : db.drives.find? (fun d => d.id = slug) with
    | none => simp [hfind] at h
    | some e =>
        have hid := List.find?_some hfind
        rw [decide_eq_true_iff] at hid
        cases hrole : getUserDriveRole db userId slug with
        | none => simp [hfind, hrole] at h
        | some role =>
            simp only [hfind, hrole, show given none = none from rfl, Option.mem_def,
              reduceCtorEq, false_and, exists_false, if_false, Except.ok.injEq] at h
            subst h
            exact ⟨e, ⟨List.mem_of_find?_eq_some hfind, hid ▸ hmember hrole, .inl ⟨hslug, hid⟩⟩,
              rfl, hid.symm⟩

theorem TakenFor.resolveContext (hdrives : Keyed DriveRow.id db.drives) {slug : Text}
    {e : DriveRow} (h : TakenFor db userId slug e) :
  ∃ role, AgentFs.resolveContext db userId none (some slug) = .ok ⟨e.orgId, e.id, role⟩
  := by
  obtain ⟨he, hmember, hslug⟩ := h
  obtain ⟨m, hm⟩ := Option.isSome_iff_exists.mp (findMember_isSome.mpr hmember)
  have hrole : getUserDriveRole db userId e.id = some m.role := by
    unfold getUserDriveRole memberRole
    rw [hm]
    rfl
  use m.role
  unfold AgentFs.resolveContext
  rcases hslug with ⟨hne, rfl⟩ | ⟨rfl, org, horg, hdrive⟩
  · have hfind := hdrives.find?_eq he rfl
    simp [given_some hne, hfind, hrole, show given none = none from rfl]
  · have hprop := List.find?_some hdrive
    rw [decide_eq_true_iff] at hprop
    simp [show given (some []) = none from rfl, show given none = none from rfl, horg, hdrive,
      hrole, hprop.1]

/-- In the root of a mount a listed slug other than `current` is a directory. -/
theorem resolveChild_root {calls : List FuseCall} {drives : List DriveInfo} {d : DriveInfo}
    (hd : d ∈ drives) (hname : d.slug ≠ "current".toList) :
  ∃ node, ((InodeTable.run calls).resolveChild rootInode d.slug (.drives drives)).1 = .ok node ∧
    node.kind = .dir ∧ node.drive = d.slug ∧ node.path = ['/']
  := by
  have hsome : (drives.find? (fun e => e.slug = d.slug)).isSome := by
    rw [List.find?_isSome]
    exact ⟨d, hd, decide_eq_true rfl⟩
  obtain ⟨e, he⟩ := Option.isSome_iff_exists.mp hsome
  have hslug := List.find?_some he
  rw [decide_eq_true_iff] at hslug
  unfold InodeTable.resolveChild
  rw [InodeTable.getInode_run]
  simp only [if_true, if_neg hname, he, InodeTable.mint]
  exact ⟨_, rfl, rfl, hslug, rfl⟩

/-- The names that address the drives are those whose slugs address them. -/
theorem NamesAddress.slugs (hdrives : Keyed DriveRow.id db.drives)
    (h : NamesAddress db userId) :
  SlugsAddress db userId
  := by
  have hsame : ∀ d ∈ daemonListDrives db userId, ∀ e ∈ daemonListDrives db userId,
      d.slug = e.slug → d = e := by
    intro d hd e he hslug
    obtain ⟨d, hvisible, rfl⟩ := mem_daemonListDrives.mp hd
    obtain ⟨e, hvisible', rfl⟩ := mem_daemonListDrives.mp he
    rw [hdrives.eq_of_mem hvisible.drive hvisible'.drive (h.distinct d e hvisible hvisible' hslug)]
  refine ⟨?_, ensureDriveTable_all db userId, ?_, ?_, ?_⟩
  · exact fun d hd e he hne hslug => hne (hsame d hd e he hslug)
  · intro d hd calls
    apply resolveChild_root hd
    obtain ⟨d, hvisible, rfl⟩ := mem_daemonListDrives.mp hd
    exact h.current d hvisible
  · intro d hd
    cases hcontext : resolveContext db userId none (some d.slug) with
    | error e =>
        rw [resolveDrive_of_error hcontext]
        cases hfind : (daemonListDrives db userId).find? (fun e => e.slug = d.slug) with
        | none => exact absurd (decide_eq_true rfl) (List.find?_eq_none.mp hfind d hd)
        | some found =>
            have hslug := List.find?_some hfind
            rw [decide_eq_true_iff] at hslug
            rw [hsame found (List.mem_of_find?_eq_some hfind) d hd hslug]
    | ok context =>
        unfold resolveDrive
        rw [hcontext]
        dsimp only
        obtain ⟨e, ⟨he, hmember, htaken⟩, horg, hdrive⟩ := resolveContext_ok hcontext
        obtain ⟨d, hvisible, rfl⟩ := mem_daemonListDrives.mp hd
        have hid : e.id = d.id := by
          rcases htaken with ⟨hne, hid⟩ | ⟨hempty, org, hpersonal, hdefault⟩
          · exact h.ids d hvisible hne e he hmember hid
          · exact h.unnamed d hvisible hempty org e hpersonal hdefault hmember
        obtain rfl := hdrives.eq_of_mem he hvisible.drive hid
        rw [horg, hdrive]
        rfl
  · intro d hd
    unfold DriveTable.resolveDrive
    rw [ensureDriveTable_eq]
    have hsome : (((daemonListDrives db userId).foldl DriveTable.add
        ⟨OrderedMap.empty, []⟩).bySlug.get d.slug).isSome :=
      DriveTable.bySlug_isSome (.inl ⟨d, hd, rfl⟩)
    obtain ⟨entry, hentry⟩ := Option.isSome_iff_exists.mp hsome
    rw [hentry]
    rcases DriveTable.mem_of_bySlug hentry with ⟨e, he, hslug, rfl⟩ | hnone
    · rw [hsame e he d hd hslug]
      rfl
    · cases hnone

theorem SlugsAddress.names (hdrives : Keyed DriveRow.id db.drives)
    (h : SlugsAddress db userId) :
  NamesAddress db userId
  := by
  have htaken : ∀ d e, VisibleDrive db userId d → TakenFor db userId d.name e → e.id = d.id := by
    intro d e hvisible he
    obtain ⟨role, hcontext⟩ := he.resolveContext hdrives
    have hresolve := h.daemon d.info (mem_daemonListDrives.mpr ⟨d, hvisible, rfl⟩)
    unfold resolveDrive at hresolve
    change (match resolveContext db userId none (some d.name) with
      | .ok resolved => _
      | .error _ => _) = _ at hresolve
    rw [hcontext] at hresolve
    exact congrArg Prod.snd (Except.ok.inj hresolve)
  constructor
  · intro d e hvisible hvisible' hname
    by_contra hne
    apply h.distinct _ (mem_daemonListDrives.mpr ⟨d, hvisible, rfl⟩) _
      (mem_daemonListDrives.mpr ⟨e, hvisible', rfl⟩) _ hname
    intro hinfo
    exact hne (congrArg DriveInfo.id hinfo)
  · intro d hvisible hname
    obtain ⟨node, hnode, hkind, -⟩ :=
      h.lookup d.info (mem_daemonListDrives.mpr ⟨d, hvisible, rfl⟩) []
    change ((InodeTable.run []).resolveChild rootInode d.name _).1 = _ at hnode
    unfold InodeTable.resolveChild at hnode
    rw [InodeTable.getInode_run, hname] at hnode
    simp only [if_true, InodeTable.mint, Except.ok.injEq] at hnode
    rw [← hnode] at hkind
    cases hkind
  · intro d hvisible hne e he hmember hid
    exact htaken d e hvisible ⟨he, hmember, .inl ⟨hne, hid⟩⟩
  · intro d hvisible hempty org e hpersonal hdefault hmember
    exact htaken d e hvisible ⟨List.mem_of_find?_eq_some hdefault, hmember,
      .inr ⟨hempty, org, hpersonal, hdefault⟩⟩

end

/-- For every set of orgs and drives, the slugs that are listed address the drives exactly when
their names do not stand for anything else. -/
theorem slugs_address_iff {db : Directory} (hdrives : Keyed DriveRow.id db.drives)
    (userId : Text) :
  SlugsAddress db userId ↔ NamesAddress db userId
  := ⟨fun h => h.names hdrives, fun h => h.slugs hdrives⟩

/-- A user with two orgs, each with the drive that `createOrg` makes. -/
def sampleTwoOrgs : Directory where
  users := [⟨['u'], ['u', '@']⟩]
  orgs := [⟨['p'], ['P'], true⟩, ⟨['q'], ['Q'], false⟩]
  orgMembers := [⟨['p'], ['u'], .admin⟩, ⟨['q'], ['u'], .admin⟩]
  drives := [⟨['a'], ['p'], "default".toList, true⟩, ⟨['b'], ['q'], "default".toList, true⟩]
  driveMembers := [⟨['a'], ['u'], .admin⟩, ⟨['b'], ['u'], .admin⟩]
  invites := []
  apiKeys := []

theorem slugs_address_iff_sampleTwoOrgs :
  SlugsAddress sampleTwoOrgs ['u'] ↔ NamesAddress sampleTwoOrgs ['u']
  := slugs_address_iff (by decide +kernel) ['u']

/-- Both drives are listed under one slug, which the daemon resolves to the first and the HTTP
transport to the second. -/
theorem slug_of_two_drives :
  daemonListDrives sampleTwoOrgs ['u'] =
      [⟨"default".toList, ['a'], ['p']⟩, ⟨"default".toList, ['b'], ['q']⟩] ∧
    resolveDrive sampleTwoOrgs ['u'] "default".toList = .ok (['p'], ['a']) ∧
    (ensureDriveTable sampleTwoOrgs ['u']).resolveDrive "default".toList = some (['q'], ['b']) ∧
    ¬ SlugsAddress sampleTwoOrgs ['u']
  := by
  refine ⟨by decide +kernel, by decide +kernel, by decide +kernel, ?_⟩
  intro h
  apply h.distinct ⟨"default".toList, ['a'], ['p']⟩ (by decide +kernel)
    ⟨"default".toList, ['b'], ['q']⟩ (by decide +kernel) (by decide +kernel) rfl

end AgentFs

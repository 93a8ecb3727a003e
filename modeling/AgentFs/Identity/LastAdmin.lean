import AgentFs.Identity.System

/-!
# The last admin

Every org keeps an admin, every drive keeps an admin, every member of a drive is a member of
its org, and a refused operation changes nothing, in every run of the identity operations in
which the checks that some operations make before their transaction still hold when it runs.
`updateOrgMemberRole` counts the admins outside its transaction, so two processes can demote
the last two admins of an org; `addDriveMember` looks up the org role outside its transaction,
and `createOrg` adds its rows one statement at a time.
-/

namespace AgentFs

open Async Tabular

/-! ### What the operations have seen before they write -/

/-- The segment has found, or put, the drive in the org. -/
def DirAction.Sees (orgId driveId : Text) : DirAction → Prop
  | .sawDrives o ids => o = orgId ∧ driveId ∈ ids
  | .driveInserted d o => d = driveId ∧ o = orgId
  | _ => False

/-- The segment wrote nothing. -/
def DirAction.Reads : DirAction → Prop
  | .quiet => True
  | .sawDrives _ _ => True
  | _ => False

/-- The rule of every operation: it grants roles only on drives that it has found in the
org. -/
def GrantsSeen (h : List DirAction) : DirAction → Prop
  | .driveFounded d o _ => ∃ e ∈ h, e.Sees o d
  | .driveGranted d o _ => ∃ e ∈ h, e.Sees o d
  | .granted o _ grants => ∀ g ∈ grants, ∃ e ∈ h, e.Sees o g.driveId
  | _ => True

/-- Nothing was written so far. -/
def NoWrites (h : List DirAction) : Prop := ∀ a ∈ h, a.Reads

/-- What a refused operation has done: nothing, unless it is a creation that was cut short. -/
def Refused (h : List DirAction) : Prop := NoWrites h ∨ .createFailed ∈ h

/-- The operation has only read, and has added to the history. -/
structure Reading (h h' : List DirAction) : Prop where
  clean : NoWrites h'
  sub : h ⊆ h'

theorem NoWrites.cons {h : List DirAction} {a : DirAction} (hclean : NoWrites h) (ha : a.Reads) :
  NoWrites (a :: h)
  := by
  intro b hb
  obtain rfl | hb := List.mem_cons.mp hb
  · exact ha
  · exact hclean b hb

theorem NoWrites.reading {h : List DirAction} {a : DirAction} (hclean : NoWrites h) (ha : a.Reads) :
  Reading h (a :: h)
  := ⟨hclean.cons ha, List.subset_cons_self _ _⟩

/-- A statement that fails before anything was written leaves nothing. -/
theorem NoWrites.quiet_refused {h : List DirAction} (hclean : NoWrites h) :
  GrantsSeen h .quiet ∧ Refused (.quiet :: h)
  := ⟨trivial, .inl (hclean.cons trivial)⟩

theorem createFailed_refused {h : List DirAction} :
  GrantsSeen h .createFailed ∧ Refused (.createFailed :: h)
  := ⟨trivial, .inr List.mem_cons_self⟩

theorem Reading.trans {h h' h'' : List DirAction} (hr : Reading h h') (hr' : Reading h' h'') :
  Reading h h''
  := ⟨hr'.clean, fun _ ha => hr'.sub (hr.sub ha)⟩

/-- The judgement of an operation with its rule and with what a refusal leaves. -/
abbrev DirOp.Obeys {α : Type} (op : DirOp α) (Q : List DirAction → α → Prop)
    (h : List DirAction) : Prop :=
  op.Follows GrantsSeen Q (fun h' _ => Refused h') h

section

variable {α β : Type} {h : List DirAction}

theorem DirOp.Obeys.bind {op : DirOp α} {g : α → DirOp β} {Q : List DirAction → α → Prop}
    {Q' : List DirAction → β → Prop} (hop : op.Obeys Q h)
    (hg : ∀ h' a, Q h' a → (g a).Obeys Q' h') :
  (op >>= g).Obeys Q' h
  := Fallible.Follows.bind (Fallible.Follows.mono hg (fun _ _ he => he) hop)

theorem statement_obeys {failed : DirAction} {Q : List DirAction → α → Prop}
    {f : Directory → DirInput → Except IdentityError (Effect α)}
    (hfailed : GrantsSeen h failed ∧ Refused (failed :: h))
    (hf : ∀ {db x e}, f db x = .ok e → GrantsSeen h e.2.1 ∧ Q (e.2.1 :: h) e.1) :
  (statement failed f).Obeys Q h
  := by
  apply Fallible.Follows.atomic
  intro db x
  split
  · exact hfailed
  · rename_i a action db' hok
    split at hok
    · cases hok
    · exact hf hok

theorem transaction_obeys {Q : List DirAction → α → Prop}
    {f : Directory → DirInput → Except IdentityError (Effect α)} (hclean : NoWrites h)
    (hf : ∀ {db x e}, f db x = .ok e → GrantsSeen h e.2.1 ∧ Q (e.2.1 :: h) e.1) :
  (transaction f).Obeys Q h
  := statement_obeys hclean.quiet_refused hf

theorem select_obeys (f : Directory → DirInput → Except IdentityError α) (hclean : NoWrites h) :
  (select f).Obeys (fun h' _ => Reading h h') h
  := by
  apply statement_obeys hclean.quiet_refused
  intro db x e hok
  obtain ⟨a, -, hpure⟩ := bind_eq_ok_iff.mp hok
  cases hpure
  exact ⟨trivial, hclean.reading trivial⟩

/-- A transaction that grants nothing. -/
theorem transaction_obeys_of {f : Directory → DirInput → Except IdentityError (Effect α)}
    (hclean : NoWrites h)
    (hf : ∀ {db x e}, f db x = .ok e → ∀ h, GrantsSeen h e.2.1) :
  (transaction f).Obeys (fun _ _ => True) h
  := transaction_obeys hclean (fun hok => ⟨hf hok h, trivial⟩)

theorem refuse_obeys {Q : List DirAction → α → Prop} (hclean : NoWrites h) (e : IdentityError) :
  (throw e : DirOp α).Obeys Q h
  := Fallible.Follows.throw (Or.inl hclean)

theorem resolveUserByEmail_obeys (lower : Text → Text) (email : Text) (hclean : NoWrites h) :
  (resolveUserByEmail lower email).Obeys (fun h' _ => Reading h h') h
  := by
  apply (select_obeys _ hclean).bind
  intro h' exact hread
  cases exact with
  | some user => exact Fallible.Follows.pure hread
  | none =>
      apply (select_obeys _ hread.clean).bind
      intro h'' candidates hread'
      match candidates with
      | [] => exact Fallible.Follows.pure (hread.trans hread')
      | [user] => exact Fallible.Follows.pure (hread.trans hread')
      | _ :: _ :: _ => exact Fallible.Follows.pure (hread.trans hread')

theorem assertDriveInOrg_obeys (driveId orgId : Text) (hclean : NoWrites h) :
  (assertDriveInOrg driveId orgId).Obeys
    (fun h' _ => Reading h h' ∧ ∃ e ∈ h', e.Sees orgId driveId) h
  := by
  apply statement_obeys hclean.quiet_refused
  intro db x e hok
  split at hok
  · split at hok
    · cases hok
      exact ⟨trivial, hclean.reading trivial, _, List.mem_cons_self, rfl,
        List.mem_singleton_self _⟩
    · cases hok
  · cases hok

theorem assertDrivesInOrg_obeys (orgId : Text) (grants : List DriveGrant) (hclean : NoWrites h) :
  (assertDrivesInOrg orgId grants).Obeys
    (fun h' _ => Reading h h' ∧ ∀ g ∈ grants, ∃ e ∈ h', e.Sees orgId g.driveId) h
  := by
  induction grants generalizing h with
  | nil => exact Fallible.Follows.pure ⟨⟨hclean, List.Subset.refl _⟩, by simp⟩
  | cons grant grants ih =>
      apply (assertDriveInOrg_obeys _ _ hclean).bind
      rintro h' _ ⟨hread, e, he, hsees⟩
      apply Fallible.Follows.mono _ (fun _ _ h => h) (ih hread.clean)
      rintro h'' _ ⟨hread', hrest⟩
      refine ⟨hread.trans hread', ?_⟩
      intro g hg
      obtain rfl | hg := List.mem_cons.mp hg
      · exact ⟨e, hread'.sub he, hsees⟩
      · exact hrest g hg

/-- Deduplicating invents no grant. -/
theorem mem_of_mem_dedupeGrants {grants : List DriveGrant} {g : DriveGrant}
    (hg : g ∈ dedupeGrants grants) :
  g ∈ grants
  := by
  suffices hfold : ∀ (l acc : List DriveGrant), g ∈ l.foldl (fun acc g =>
      if ∃ a ∈ acc, a.driveId = g.driveId then
        acc.map (fun a => if a.driveId = g.driveId then g else a)
      else acc ++ [g]) acc → g ∈ acc ∨ g ∈ l by
    obtain hnil | hmem := hfold grants [] hg
    · cases hnil
    · exact hmem
  intro l
  induction l with
  | nil => exact fun acc h => .inl h
  | cons a l ih =>
      intro acc h
      obtain hacc | hl := ih _ h
      · dsimp only at hacc
        split at hacc
        · obtain ⟨b, hb, rfl⟩ := List.mem_map.mp hacc
          split
          · exact .inr List.mem_cons_self
          · exact .inl hb
        · obtain hacc | hone := List.mem_append.mp hacc
          · exact .inl hacc
          · obtain rfl := List.mem_singleton.mp hone
            exact .inr List.mem_cons_self
      · exact .inr (List.mem_cons_of_mem _ hl)

theorem resolveInviteGrants_obeys (orgId : Text) (role : Role)
    (drives : Option (List DriveGrant)) (hclean : NoWrites h) :
  (resolveInviteGrants orgId role drives).Obeys
    (fun h' grants => Reading h h' ∧ ∀ g ∈ grants, ∃ e ∈ h', e.Sees orgId g.driveId) h
  := by
  cases drives with
  | none =>
      apply statement_obeys hclean.quiet_refused
      intro db x e hok
      split at hok
      · cases hok
        refine ⟨trivial, hclean.reading trivial, ?_⟩
        intro g hg
        obtain rfl := List.mem_singleton.mp hg
        exact ⟨_, List.mem_cons_self, rfl, List.mem_singleton_self _⟩
      · cases hok
        exact ⟨trivial, hclean.reading trivial, by simp⟩
  | some drives =>
      apply (assertDrivesInOrg_obeys orgId drives hclean).bind
      rintro h' _ ⟨hread, hseen⟩
      exact Fallible.Follows.pure ⟨hread, fun g hg => hseen g (mem_of_mem_dedupeGrants hg)⟩

theorem createDrive_obeys {failed : DirAction} (orgId name : Text) (isDefault : Bool)
    (creatorUserId : Option Text) (hfailed : GrantsSeen h failed ∧ Refused (failed :: h)) :
  (createDrive failed orgId name isDefault creatorUserId).Obeys (fun _ _ => True) h
  := by
  refine DirOp.Obeys.bind (Q := fun h' id => ∃ e ∈ h', e.Sees orgId id) ?_ ?_
  · apply statement_obeys hfailed
    intro db x e hok
    split at hok
    · cases hok
    · split at hok
      · cases hok
        exact ⟨trivial, _, List.mem_cons_self, rfl, rfl⟩
      · cases hok
  · intro h' id hsees
    cases creatorUserId with
    | none => exact Fallible.Follows.pure trivial
    | some userId =>
        apply statement_obeys createFailed_refused
        intro db x e hok
        split at hok
        · cases hok
        · split at hok
          · cases hok
            exact ⟨hsees, trivial⟩
          · cases hok

theorem createOrg_obeys (name userId : Text) (isPersonal : Bool) (hclean : NoWrites h) :
  (createOrg name userId isPersonal).Obeys (fun _ _ => True) h
  := by
  refine DirOp.Obeys.bind (Q := fun _ _ => True) ?_ ?_
  · apply statement_obeys hclean.quiet_refused
    intro db x e hok
    split at hok
    · cases hok
    · cases hok
      exact ⟨trivial, trivial⟩
  · intro h' id _
    refine DirOp.Obeys.bind (Q := fun _ _ => True) ?_ ?_
    · apply statement_obeys createFailed_refused
      intro db x e hok
      split at hok
      · cases hok
      · split at hok
        · cases hok
          exact ⟨trivial, trivial⟩
        · cases hok
    · intro h'' _ _
      apply (createDrive_obeys _ _ _ _ createFailed_refused).bind
      exact fun _ _ _ => Fallible.Follows.pure trivial

theorem createPendingInvite_obeys (toLowerCase sha256 : Text → Text) (orgId email : Text)
    (role : Role) (drives : List DriveGrant) (invitedBy : Text) (hclean : NoWrites h) :
  (createPendingInvite toLowerCase sha256 orgId email role drives invitedBy).Obeys
    (fun _ _ => True) h
  := by
  apply transaction_obeys_of hclean
  intro db x e hok h
  dsimp only at hok
  split at hok
  · cases hok
  · cases hok
    trivial

theorem acceptInvite_obeys (lower sha256 : Text → Text) (token userId : Text)
    (hclean : NoWrites h) :
  (acceptInvite lower sha256 token userId).Obeys (fun _ _ => True) h
  := by
  have hinvite : (getInviteByToken sha256 token).Obeys (fun h' _ => Reading h h') h := by
    unfold getInviteByToken
    split
    · exact select_obeys _ hclean
    · exact Fallible.Follows.pure ⟨hclean, List.Subset.refl _⟩
  apply hinvite.bind
  intro h₁ invite hread₁
  cases invite with
  | none => exact refuse_obeys hread₁.clean _
  | some invite =>
      apply (resolveUserByEmail_obeys lower _ hread₁.clean).bind
      intro h₂ lookup hread₂
      cases lookup with
      | ambiguous candidates => exact refuse_obeys hread₂.clean _
      | none => exact refuse_obeys hread₂.clean _
      | found user =>
          dsimp only
          split
          · exact refuse_obeys hread₂.clean _
          · refine DirOp.Obeys.bind (Q := fun h' existing => NoWrites h' ∧
              ∀ id ∈ existing, ∃ e ∈ h', e.Sees invite.orgId id) ?_ ?_
            · apply statement_obeys hread₂.clean.quiet_refused
              intro db x e hok
              cases hok
              exact ⟨trivial, hread₂.clean.cons trivial,
                fun id hid => ⟨_, List.mem_cons_self, rfl, hid⟩⟩
            · rintro h₃ existing ⟨hclean₃, hseen⟩
              apply transaction_obeys hclean₃
              intro db x e hok
              split at hok
              · obtain ⟨_, -, hok⟩ := bind_eq_ok_iff.mp hok
                obtain ⟨_, -, hok⟩ := bind_eq_ok_iff.mp hok
                cases hok
                refine ⟨?_, trivial⟩
                intro g hg
                have hmem := List.of_mem_filter hg
                simp only [decide_eq_true_eq] at hmem
                exact hseen g.driveId hmem
              · cases hok

theorem updateOrgMemberRole_obeys (orgId userId : Text) (role : Role) (hclean : NoWrites h) :
  (updateOrgMemberRole orgId userId role).Obeys (fun _ _ => True) h
  := by
  have hset : ∀ {h' demotes}, NoWrites h' →
      (setOrgMemberRole orgId userId role demotes).Obeys (fun _ _ => True) h' := by
    intro h' demotes hclean'
    apply transaction_obeys_of hclean'
    intro db x e hok h
    cases hok
    trivial
  apply (select_obeys _ hclean).bind
  intro h' existing hread
  split
  · apply (select_obeys _ hread.clean).bind
    exact fun _ _ hread' => hset hread'.clean
  · exact hset hread.clean

theorem removeOrgMember_obeys (orgId userId : Text) (hclean : NoWrites h) :
  (removeOrgMember orgId userId).Obeys (fun _ _ => True) h
  := by
  apply transaction_obeys_of hclean
  intro db x e hok h
  split at hok
  · cases hok
  · split at hok
    · cases hok
    · split at hok
      · cases hok
      · dsimp only at hok
        split at hok
        · cases hok
          trivial
        · cases hok

theorem updateDriveMemberRole_obeys (driveId userId : Text) (role : Role) (hclean : NoWrites h) :
  (updateDriveMemberRole driveId userId role).Obeys (fun _ _ => True) h
  := by
  apply transaction_obeys_of hclean
  intro db x e hok h
  split at hok
  · cases hok
  · obtain ⟨_, -, hok⟩ := bind_eq_ok_iff.mp hok
    cases hok
    trivial

theorem removeDriveMember_obeys (driveId userId : Text) (hclean : NoWrites h) :
  (removeDriveMember driveId userId).Obeys (fun _ _ => True) h
  := by
  apply transaction_obeys_of hclean
  intro db x e hok h
  split at hok
  · cases hok
  · obtain ⟨_, -, hok⟩ := bind_eq_ok_iff.mp hok
    cases hok
    trivial

theorem inviteToOrg_obeys (toLowerCase lower sha256 : Text → Text) (params : InviteParams)
    (hclean : NoWrites h) :
  (inviteToOrg toLowerCase lower sha256 params).Obeys (fun _ _ => True) h
  := by
  apply (resolveUserByEmail_obeys lower _ hclean).bind
  intro h₁ lookup hread₁
  cases lookup with
  | ambiguous candidates => exact refuse_obeys hread₁.clean _
  | none =>
      dsimp only
      split
      · exact refuse_obeys hread₁.clean _
      · apply (resolveInviteGrants_obeys _ _ _ hread₁.clean).bind
        exact fun h₂ grants hgrants => createPendingInvite_obeys _ _ _ _ _ _ _ hgrants.1.clean
  | found user =>
      apply (resolveInviteGrants_obeys _ _ _ hread₁.clean).bind
      rintro h₂ grants ⟨hread₂, hseen⟩
      apply (select_obeys _ hread₂.clean).bind
      intro h₃ orgRole hread₃
      split
      · exact createPendingInvite_obeys _ _ _ _ _ _ _ hread₃.clean
      · apply transaction_obeys hread₃.clean
        intro db x e hok
        obtain ⟨_, -, hok⟩ := bind_eq_ok_iff.mp hok
        obtain ⟨_, -, hok⟩ := bind_eq_ok_iff.mp hok
        cases hok
        refine ⟨?_, trivial⟩
        intro g hg
        obtain ⟨e, he, hsees⟩ := hseen g hg
        exact ⟨e, hread₃.sub he, hsees⟩

theorem filterOrgMembers_obeys (orgId : Text) (users : List UserRow) (hclean : NoWrites h) :
  (filterOrgMembers orgId users).Obeys (fun h' _ => Reading h h') h
  := by
  induction users generalizing h with
  | nil => exact Fallible.Follows.pure ⟨hclean, List.Subset.refl _⟩
  | cons user users ih =>
      apply (select_obeys _ hclean).bind
      intro h₁ role hread₁
      apply (ih hread₁.clean).bind
      exact fun h₂ _ hread₂ => Fallible.Follows.pure (hread₁.trans hread₂)

theorem resolveAccount_obeys (lower : Text → Text) (orgId : Text) (account : AccountRef)
    (hclean : NoWrites h) :
  (resolveAccount lower orgId account).Obeys (fun h' _ => Reading h h') h
  := by
  cases account with
  | userId userId => exact select_obeys _ hclean
  | email email =>
      apply (resolveUserByEmail_obeys lower _ hclean).bind
      intro h₁ lookup hread₁
      cases lookup with
      | found user => exact Fallible.Follows.pure hread₁
      | none => exact Fallible.Follows.pure hread₁
      | ambiguous candidates =>
          apply (filterOrgMembers_obeys _ _ hread₁.clean).bind
          intro h₂ members hread₂
          split
          · exact refuse_obeys hread₂.clean _
          · exact Fallible.Follows.pure (hread₁.trans hread₂)

theorem addDriveMember_obeys (lower : Text → Text) (orgId driveId : Text) (role : Role)
    (account : AccountRef) (hclean : NoWrites h) :
  (addDriveMember lower orgId driveId role account).Obeys (fun _ _ => True) h
  := by
  apply (assertDriveInOrg_obeys _ _ hclean).bind
  rintro h₁ _ ⟨hread₁, e, he, hsees⟩
  apply (resolveAccount_obeys _ _ _ hread₁.clean).bind
  intro h₂ user hread₂
  cases user with
  | none => exact refuse_obeys hread₂.clean _
  | some user =>
      apply (select_obeys _ hread₂.clean).bind
      intro h₃ orgRole hread₃
      cases orgRole with
      | none => exact refuse_obeys hread₃.clean _
      | some _ =>
          apply transaction_obeys hread₃.clean
          intro db x e hok
          obtain ⟨_, -, hok⟩ := bind_eq_ok_iff.mp hok
          cases hok
          exact ⟨⟨e, hread₃.sub (hread₂.sub he), hsees⟩, trivial⟩

end

/-! ### One step -/

/-- What an operation has checked before it writes holds when it writes: the org of a role
that is set has an admin besides the user, and the user who gets a role on a drive is a
member of the org.  A creation is not cut short. -/
def DirAction.Checked (db : Directory) : DirAction → Prop
  | .orgRoleSet orgId userId role =>
      role ≠ .admin → HasAdmin db.orgMembers orgId → HasOtherAdmin db.orgMembers orgId userId
  | .driveGranted _ orgId userId => IsMember db.orgMembers orgId userId
  | .driveFounded _ orgId userId => IsMember db.orgMembers orgId userId
  | .createFailed => False
  | _ => True

instance (db : Directory) : (action : DirAction) → Decidable (action.Checked db)
  | .orgRoleSet _ _ _ => inferInstanceAs (Decidable (_ → _ → _))
  | .driveGranted _ _ _ => inferInstanceAs (Decidable (IsMember _ _ _))
  | .driveFounded _ _ _ => inferInstanceAs (Decidable (IsMember _ _ _))
  | .createFailed => isFalse id
  | .quiet => isTrue trivial
  | .sawDrives _ _ => isTrue trivial
  | .orgInserted _ => isTrue trivial
  | .orgFounded _ _ => isTrue trivial
  | .driveInserted _ _ => isTrue trivial
  | .invited _ => isTrue trivial
  | .inviteRevoked _ => isTrue trivial
  | .granted _ _ _ => isTrue trivial
  | .orgMemberRemoved _ _ => isTrue trivial
  | .driveRoleSet _ _ => isTrue trivial
  | .driveMemberRemoved _ _ => isTrue trivial

/-- The keys of the tables hold, and every member of a drive is a member of its org. -/
structure Directory.Valid (db : Directory) : Prop where
  orgMemberKey : Keyed Member.key db.orgMembers
  driveMemberKey : Keyed Member.key db.driveMembers
  driveKey : Keyed DriveRow.id db.drives
  belongs : ∀ driveId userId, IsMember db.driveMembers driveId userId →
    ∃ d ∈ db.drives, d.id = driveId ∧ IsMember db.orgMembers d.orgId userId

section

variable {db db' : Directory} {action : DirAction}

/-- A user who is not the only admin of the drives leaves each of them another admin. -/
theorem hasOtherAdmin_of_notSole {userId driveId : Text} {driveIds : List Text}
    (hsole : findSoleAdminDrives userId driveIds db = []) (hid : driveId ∈ driveIds)
    (hkey : Keyed Member.key db.driveMembers) (hadmin : HasAdmin db.driveMembers driveId) :
  HasOtherAdmin db.driveMembers driveId userId
  := by
  apply hasOtherAdmin_of_adminsOf hkey hadmin
  rintro ⟨m, hm, huser⟩
  have hnone := List.filterMap_eq_nil_iff.mp hsole driveId hid
  simp [hm, huser] at hnone

/-- The guard of a drive leaves it another admin. -/
theorem hasOtherAdmin_of_guard {userId driveId : Text} {member : Member}
    (hfound : findMember db.driveMembers driveId userId = some member)
    (hsole : member.role = .admin → findSoleAdminDrives userId [driveId] db = [])
    (hkey : Keyed Member.key db.driveMembers) (hadmin : HasAdmin db.driveMembers driveId) :
  HasOtherAdmin db.driveMembers driveId userId
  := by
  by_cases hrole : member.role = .admin
  · exact hasOtherAdmin_of_notSole (hsole hrole) (List.mem_singleton_self _) hkey hadmin
  · obtain ⟨hmem, hmkey⟩ := findMember_mem hfound
    exact hadmin.other_of_role hkey hmem hmkey hrole

/-- A step keeps the drives. -/
theorem DirStep.drives (h : DirStep db action db') :
  ∃ new, db'.drives = db.drives ++ new
  := by
  cases h with
  | driveInserted row fresh => exact ⟨[row], rfl⟩
  | _ => exact ⟨[], (List.append_nil _).symm⟩

/-- An org that has an admin keeps one. -/
theorem DirStep.orgAdmin (h : DirStep db action db') (hkey : Keyed Member.key db.orgMembers)
    (hchecked : action.Checked db) {orgId : Text} (hadmin : HasAdmin db.orgMembers orgId) :
  HasAdmin db'.orgMembers orgId
  := by
  cases h with
  | orgFounded o u fresh =>
      obtain ⟨m, hm, hadmin⟩ := hadmin
      exact ⟨m, List.mem_append_left _ hm, hadmin⟩
  | granted o u role grants invites => exact hadmin.grantRole
  | orgRoleSet o u role apiKeys => exact hadmin.setRole hchecked
  | orgMemberRemoved o u apiKeys member found guard notSole =>
      apply hadmin.removeMember
      intro horg
      by_cases hrole : member.role = .admin
      · apply hasOtherAdmin_of_count hkey
        by_contra hle
        exact guard ⟨hrole, Nat.le_of_not_lt hle⟩
      · obtain ⟨hmem, hmkey⟩ := findMember_mem found
        exact horg.other_of_role hkey hmem hmkey hrole
  | _ => exact hadmin

/-- A drive that has an admin keeps one. -/
theorem DirStep.driveAdmin (h : DirStep db action db')
    (hkey : Keyed Member.key db.driveMembers) {driveId : Text}
    (hadmin : HasAdmin db.driveMembers driveId) :
  HasAdmin db'.driveMembers driveId
  := by
  cases h with
  | driveFounded d o u fresh =>
      obtain ⟨m, hm, hadmin⟩ := hadmin
      exact ⟨m, List.mem_append_left _ hm, hadmin⟩
  | granted o u role grants invites => exact hadmin.grantRoles _ _ grants
  | driveGranted d o u role => exact hadmin.grantRole
  | orgMemberRemoved o u apiKeys member found guard notSole =>
      exact hadmin.removeMembers
        (fun d hd hdrive => hasOtherAdmin_of_notSole notSole hd hkey hdrive)
  | driveRoleSet d u role member found notSole =>
      apply hadmin.setRole
      intro hrole hdrive
      exact hasOtherAdmin_of_guard found (fun h => notSole h hrole) hkey hdrive
  | driveMemberRemoved d u member found notSole =>
      exact hadmin.removeMember (hasOtherAdmin_of_guard found notSole hkey)
  | _ => exact hadmin

theorem keyed_append_member {members : List Member} {scopeId userId : Text} {role : Role}
    (h : Keyed Member.key members) (hfresh : ¬ IsMember members scopeId userId) :
  Keyed Member.key (members ++ [⟨scopeId, userId, role⟩])
  := by
  apply h.concat
  intro m hm hmkey
  exact hfresh ⟨m, hm, hmkey⟩

theorem isMember_append {members : List Member} {scopeId userId : Text} {role : Role}
    (s u : Text) :
  IsMember (members ++ [⟨scopeId, userId, role⟩]) s u ↔
    IsMember members s u ∨ (s, u) = (scopeId, userId)
  := by
  simp [IsMember, Member.key, or_and_right, exists_or, eq_comm]

/-- The drive is in the org. -/
def Directory.Holds (db : Directory) (orgId driveId : Text) : Prop :=
  ∃ d ∈ db.drives, d.id = driveId ∧ d.orgId = orgId

/-- The drives on which the action grants roles are in its org. -/
def DirAction.Located (db : Directory) : DirAction → Prop
  | .driveFounded d o _ => db.Holds o d
  | .driveGranted d o _ => db.Holds o d
  | .granted o _ grants => ∀ g ∈ grants, db.Holds o g.driveId
  | _ => True

/-- A step that only adds members of orgs and adds no member of a drive. -/
theorem Directory.Valid.belongs_mono (hvalid : db.Valid)
    (hdrives : ∀ d ∈ db.drives, d ∈ db'.drives)
    (hdriveMembers : ∀ s u, IsMember db'.driveMembers s u → IsMember db.driveMembers s u)
    (horgMembers : ∀ s u, IsMember db.orgMembers s u → IsMember db'.orgMembers s u)
    (driveId userId : Text) (h : IsMember db'.driveMembers driveId userId) :
  ∃ d ∈ db'.drives, d.id = driveId ∧ IsMember db'.orgMembers d.orgId userId
  := by
  obtain ⟨d, hd, hid, hmember⟩ := hvalid.belongs driveId userId (hdriveMembers _ _ h)
  exact ⟨d, hdrives d hd, hid, horgMembers _ _ hmember⟩

/-- A user of the org of a drive may be made a member of the drive. -/
theorem Directory.Valid.belongs_grant (hvalid : db.Valid) {driveId orgId userId : Text}
    (hholds : db.Holds orgId driveId) (hmember : IsMember db.orgMembers orgId userId)
    (s u : Text) (h : IsMember db.driveMembers s u ∨ (s, u) = (driveId, userId)) :
  ∃ d ∈ db.drives, d.id = s ∧ IsMember db.orgMembers d.orgId u
  := by
  obtain hold | heq := h
  · exact hvalid.belongs s u hold
  · cases heq
    obtain ⟨d, hd, hid, rfl⟩ := hholds
    exact ⟨d, hd, hid, hmember⟩

/-- The tables stay valid. -/
theorem Directory.Valid.step (hvalid : db.Valid) (h : DirStep db action db')
    (hchecked : action.Checked db) (hlocated : action.Located db) :
  db'.Valid
  := by
  cases h with
  | quiet => exact hvalid
  | createFailed => exact hvalid
  | sawDrives o ids seen => exact hvalid
  | orgInserted row => exact ⟨hvalid.1, hvalid.2, hvalid.3, hvalid.4⟩
  | invited o invites => exact ⟨hvalid.1, hvalid.2, hvalid.3, hvalid.4⟩
  | orgFounded o u fresh =>
      refine ⟨keyed_append_member hvalid.orgMemberKey fresh, hvalid.driveMemberKey,
        hvalid.driveKey, ?_⟩
      apply hvalid.belongs_mono
      · exact fun d hd => hd
      · exact fun s u h => h
      · exact fun s u h => (isMember_append s u).mpr (.inl h)
  | driveInserted row fresh =>
      refine ⟨hvalid.orgMemberKey, hvalid.driveMemberKey, hvalid.driveKey.concat fresh, ?_⟩
      apply hvalid.belongs_mono
      · exact fun d hd => List.mem_append_left _ hd
      · exact fun s u h => h
      · exact fun s u h => h
  | driveFounded d o u fresh =>
      refine ⟨hvalid.orgMemberKey, keyed_append_member hvalid.driveMemberKey fresh,
        hvalid.driveKey, ?_⟩
      intro s v h
      exact hvalid.belongs_grant hlocated hchecked s v ((isMember_append s v).mp h)
  | granted o u role grants invites =>
      refine ⟨keyed_grantRole hvalid.orgMemberKey, keyed_grantRoles hvalid.driveMemberKey _ _ _,
        hvalid.driveKey, ?_⟩
      intro s v h
      obtain hold | ⟨g, hg, heq⟩ := (isMember_grantRoles _ _ _ s v).mp h
      · obtain ⟨d, hd, hid, hmember⟩ := hvalid.belongs s v hold
        exact ⟨d, hd, hid, (isMember_grantRole _ _).mpr (.inl hmember)⟩
      · cases heq
        obtain ⟨d, hd, hid, rfl⟩ := hlocated g hg
        exact ⟨d, hd, hid, (isMember_grantRole _ _).mpr (.inr rfl)⟩
  | driveGranted d o u role =>
      refine ⟨hvalid.orgMemberKey, keyed_grantRole hvalid.driveMemberKey, hvalid.driveKey, ?_⟩
      intro s v h
      exact hvalid.belongs_grant hlocated hchecked s v ((isMember_grantRole s v).mp h)
  | orgRoleSet o u role apiKeys =>
      refine ⟨keyed_setRole hvalid.orgMemberKey, hvalid.driveMemberKey, hvalid.driveKey, ?_⟩
      apply hvalid.belongs_mono
      · exact fun d hd => hd
      · exact fun s u h => h
      · exact fun s u h => (isMember_setRole s u).mpr h
  | orgMemberRemoved o u apiKeys member found guard notSole =>
      refine ⟨keyed_removeMember hvalid.orgMemberKey, ?_, hvalid.driveKey, ?_⟩
      · rw [foldl_removeMember]
        exact hvalid.driveMemberKey.filter _
      · rintro s v ⟨m, hm, hmkey⟩
        rw [foldl_removeMember, List.mem_filter, decide_eq_true_eq] at hm
        obtain ⟨hm, hkept⟩ := hm
        obtain ⟨d, hd, rfl, hmember⟩ := hvalid.belongs s v ⟨m, hm, hmkey⟩
        refine ⟨d, hd, rfl, (isMember_removeMember _ _).mpr ⟨hmember, ?_⟩⟩
        intro heq
        obtain ⟨rfl, rfl⟩ := Prod.mk.inj heq
        obtain ⟨hscope, huser⟩ := Prod.mk.inj hmkey
        have hid : d.id ∈ db.orgDrives d.orgId := List.mem_map.mpr ⟨d, by simp [hd], rfl⟩
        exact hkept ⟨hscope ▸ hid, huser⟩
  | driveRoleSet d u role member found notSole =>
      refine ⟨hvalid.orgMemberKey, keyed_setRole hvalid.driveMemberKey, hvalid.driveKey, ?_⟩
      apply hvalid.belongs_mono
      · exact fun d hd => hd
      · exact fun s v h => (isMember_setRole s v).mp h
      · exact fun s v h => h
  | driveMemberRemoved d u member found notSole =>
      refine ⟨hvalid.orgMemberKey, keyed_removeMember hvalid.driveMemberKey, hvalid.driveKey, ?_⟩
      apply hvalid.belongs_mono
      · exact fun d hd => hd
      · exact fun s v h => ((isMember_removeMember s v).mp h).1
      · exact fun s v h => h

/-- What a step has seen is so. -/
theorem DirStep.holds_of_sees (h : DirStep db action db') {orgId driveId : Text}
    (hsees : action.Sees orgId driveId) :
  db'.Holds orgId driveId
  := by
  cases h with
  | sawDrives o ids seen =>
      obtain ⟨rfl, hid⟩ := hsees
      exact seen driveId hid
  | driveInserted row fresh =>
      obtain ⟨rfl, rfl⟩ := hsees
      exact ⟨row, List.mem_append_right _ (List.mem_singleton_self row), rfl, rfl⟩
  | _ => exact hsees.elim

theorem Directory.Holds.step {orgId driveId : Text} (hholds : db.Holds orgId driveId)
    (h : DirStep db action db') :
  db'.Holds orgId driveId
  := by
  obtain ⟨d, hd, heq⟩ := hholds
  obtain ⟨new, hnew⟩ := h.drives
  exact ⟨d, hnew ▸ List.mem_append_left _ hd, heq⟩

theorem DirStep.founded_org {orgId userId : Text} (h : DirStep db (.orgFounded orgId userId) db') :
  HasAdmin db'.orgMembers orgId
  := by
  cases h with
  | orgFounded o u fresh =>
      exact ⟨_, List.mem_append_right _ (List.mem_singleton_self _), rfl, rfl⟩

theorem DirStep.founded_drive {driveId orgId userId : Text}
    (h : DirStep db (.driveFounded driveId orgId userId) db') :
  HasAdmin db'.driveMembers driveId
  := by
  cases h with
  | driveFounded d o u fresh =>
      exact ⟨_, List.mem_append_right _ (List.mem_singleton_self _), rfl, rfl⟩

/-- A step that reads changes nothing. -/
theorem DirStep.eq_of_reads (h : DirStep db action db') (hreads : action.Reads) :
  db' = db
  := by
  cases h with
  | quiet => rfl
  | sawDrives o ids seen => rfl
  | _ => exact hreads.elim

end

/-! ### Runs -/

/-- The org had an admin at the start, or its creator has been added. -/
def OrgSettled (db₀ : Directory) (trace : List (Nat × DirAction)) (orgId : Text) : Prop :=
  HasAdmin db₀.orgMembers orgId ∨ ∃ t ∈ trace, ∃ userId, t.2 = .orgFounded orgId userId

/-- The drive had an admin at the start, or its creator has been added. -/
def DriveSettled (db₀ : Directory) (trace : List (Nat × DirAction)) (driveId : Text) : Prop :=
  HasAdmin db₀.driveMembers driveId ∨
    ∃ t ∈ trace, ∃ orgId userId, t.2 = .driveFounded driveId orgId userId

/-- The invariant of a run. -/
structure DirInv (db₀ : Directory) (cf : DirConfig) : Prop where
  valid : cf.state.Valid
  seen : ∀ t ∈ cf.trace, ∀ o d, t.2.Sees o d → cf.state.Holds o d
  orgAdmin : ∀ o, OrgSettled db₀ cf.trace o → HasAdmin cf.state.orgMembers o
  driveAdmin : ∀ d, DriveSettled db₀ cf.trace d → HasAdmin cf.state.driveMembers d

/-- The checks of the operations hold at every step of the run. -/
def ChecksHold : StepProp Directory DirAction := fun cf _ r => r.1.Checked cf.state

instance (cf : DirConfig) (i : Nat) (r : DirAction × Directory) : Decidable (ChecksHold cf i r) :=
  inferInstanceAs (Decidable (r.1.Checked cf.state))

theorem DirInv.located {db₀ : Directory} {cf : DirConfig} (hinv : DirInv db₀ cf) {i : Nat}
    {action : DirAction} (hrule : GrantsSeen (cf.own i) action) :
  action.Located cf.state
  := by
  have hseen : ∀ {o d}, (∃ e ∈ cf.own i, e.Sees o d) → cf.state.Holds o d := by
    rintro o d ⟨e, he, hsees⟩
    exact hinv.seen (i, e) (Conf.mem_own.mp he) o d hsees
  cases action with
  | driveFounded d o u => exact hseen hrule
  | driveGranted d o u => exact hseen hrule
  | granted o u grants => exact fun g hg => hseen (hrule g hg)
  | _ => trivial

theorem DirInv.step {db₀ : Directory} {cf : DirConfig} (hinv : DirInv db₀ cf) {i : Nat}
    {r : DirAction × Directory} (h : DirStep cf.state r.1 r.2)
    (hrule : GrantsSeen (cf.own i) r.1) (hchecked : ChecksHold cf i r) :
  DirInv db₀ (cf.push i r)
  := by
  refine ⟨hinv.valid.step h hchecked (hinv.located hrule), ?_, ?_, ?_⟩
  · intro t ht o d hsees
    obtain rfl | ht := List.mem_cons.mp ht
    · exact h.holds_of_sees hsees
    · exact (hinv.seen t ht o d hsees).step h
  · intro o hsettled
    have hold : OrgSettled db₀ cf.trace o → HasAdmin r.2.orgMembers o :=
      fun hsettled => h.orgAdmin hinv.valid.orgMemberKey hchecked (hinv.orgAdmin o hsettled)
    obtain hstart | ⟨t, ht, u, hfounded⟩ := hsettled
    · exact hold (.inl hstart)
    · obtain rfl | ht := List.mem_cons.mp ht
      · dsimp only at hfounded
        rw [hfounded] at h
        exact h.founded_org
      · exact hold (.inr ⟨t, ht, u, hfounded⟩)
  · intro d hsettled
    have hold : DriveSettled db₀ cf.trace d → HasAdmin r.2.driveMembers d :=
      fun hsettled => h.driveAdmin hinv.valid.driveMemberKey (hinv.driveAdmin d hsettled)
    obtain hstart | ⟨t, ht, o, u, hfounded⟩ := hsettled
    · exact hold (.inl hstart)
    · obtain rfl | ht := List.mem_cons.mp ht
      · dsimp only at hfounded
        rw [hfounded] at h
        exact h.founded_drive
      · exact hold (.inr ⟨t, ht, o, u, hfounded⟩)

section

variable (toLowerCase lower sha256 : Text → Text)

theorem DirRequest.program_obeys (request : DirRequest) :
  (request.program toLowerCase lower sha256).Obeys (fun _ _ => True) []
  := by
  have hclean : NoWrites [] := fun a ha => (by cases ha)
  cases request with
  | createOrg name userId isPersonal => exact createOrg_obeys _ _ _ hclean
  | createDrive orgId name creatorUserId =>
      apply (createDrive_obeys _ _ _ _ hclean.quiet_refused).bind
      exact fun _ _ _ => Fallible.Follows.pure trivial
  | inviteToOrg params => exact inviteToOrg_obeys _ _ _ _ hclean
  | acceptInvite token userId => exact acceptInvite_obeys _ _ _ _ hclean
  | addDriveMember orgId driveId role account => exact addDriveMember_obeys _ _ _ _ _ hclean
  | updateOrgMemberRole orgId userId role => exact updateOrgMemberRole_obeys _ _ _ hclean
  | removeOrgMember orgId userId => exact removeOrgMember_obeys _ _ hclean
  | updateDriveMemberRole driveId userId role =>
      apply (updateDriveMemberRole_obeys _ _ _ hclean).bind
      exact fun _ _ _ => Fallible.Follows.pure trivial
  | removeDriveMember driveId userId =>
      apply (removeDriveMember_obeys _ _ hclean).bind
      exact fun _ _ _ => Fallible.Follows.pure trivial

/-- What a finished request that was refused has done. -/
def RefusalOf (h : List DirAction) (r : Except IdentityError DirAnswer) : Prop :=
  ∀ e, r = .error e → Refused h

/-- In the state a run has reached: every org keeps an admin from the moment its creator is
added, so does every drive that is created with a creator, every member of a drive is a
member of its org, and a refused operation has changed nothing. -/
structure AdminsKept (db : Directory) (requests : List DirRequest)
    (sched : List (Nat × DirInput)) : Prop where
  orgs : ∀ o, OrgSettled db
      ((dirPool toLowerCase lower sha256 db requests).run sched).conf.trace o →
    HasAdmin ((dirPool toLowerCase lower sha256 db requests).run sched).conf.state.orgMembers o
  drives : ∀ d, DriveSettled db
      ((dirPool toLowerCase lower sha256 db requests).run sched).conf.trace d →
    HasAdmin ((dirPool toLowerCase lower sha256 db requests).run sched).conf.state.driveMembers d
  members : ∀ m ∈
      ((dirPool toLowerCase lower sha256 db requests).run sched).conf.state.driveMembers,
    ∀ d ∈ ((dirPool toLowerCase lower sha256 db requests).run sched).conf.state.drives,
      d.id = m.scopeId →
      IsMember ((dirPool toLowerCase lower sha256 db requests).run sched).conf.state.orgMembers
        d.orgId m.userId
  refused : ∀ i e,
    ((dirPool toLowerCase lower sha256 db requests).run sched).result? i = some (.error e) →
    (dirPool toLowerCase lower sha256 db requests).Admits
      (fun cf j r => j = i → r.2 = cf.state) sched

/-- In every run of the identity operations, by any number of processes, in which the checks
that an operation makes before it writes still hold when it writes, the admins are kept. -/
theorem admins_kept_of_checks (db : Directory) (hdb : db.Valid) (requests : List DirRequest)
    (sched : List (Nat × DirInput))
    (hchecks : (dirPool toLowerCase lower sha256 db requests).Admits ChecksHold sched) :
  AdminsKept toLowerCase lower sha256 db requests sched
  := by
  have hfollows : ∀ (i : Nat) p,
      (dirPool toLowerCase lower sha256 db requests).procs[i]? = some p →
      p.Follows GrantsSeen RefusalOf
        ((dirPool toLowerCase lower sha256 db requests).conf.own i) := by
    intro i p hp
    simp only [dirPool, List.getElem?_map, Option.map_eq_some_iff] at hp
    obtain ⟨request, -, rfl⟩ := hp
    apply Prog.Follows.mono _ (request.program_obeys toLowerCase lower sha256)
    rintro h (e | a) hpost e' heq
    · exact hpost
    · cases heq
  have hsteps := dirPool_steps toLowerCase lower sha256 db requests sched
  have hrules := (Pool.run_follows (R := fun _ => GrantsSeen) (Q := fun _ => RefusalOf)
    hfollows sched).1
  have hempty : DirInv db (dirPool toLowerCase lower sha256 db requests).conf := by
    refine ⟨hdb, by simp [dirPool], ?_, ?_⟩
    · rintro o (hstart | ⟨t, ht, -⟩)
      · exact hstart
      · cases ht
    · rintro d (hstart | ⟨t, ht, -⟩)
      · exact hstart
      · cases ht
  have hinv := ((Pool.admits_and.mpr ⟨hsteps, Pool.admits_and.mpr ⟨hrules, hchecks⟩⟩).inv
    (I := DirInv db) (fun cf i r hr hinv => hinv.step hr.1 hr.2.1 hr.2.2) hempty).2
  have hcompleted : ∀ i, (i, .createFailed) ∉
      ((dirPool toLowerCase lower sha256 db requests).run sched).conf.trace := by
    have hnone := ((hchecks.inv (I := fun cf => ∀ i, (i, .createFailed) ∉ cf.trace) ?_) ?_).2
    · exact hnone
    · intro cf j r hchecked hcf i hmem
      obtain heq | hmem := List.mem_cons.mp hmem
      · obtain ⟨-, heq⟩ := Prod.mk.inj heq
        rw [ChecksHold, ← heq] at hchecked
        exact hchecked
      · exact hcf i hmem
    · intro i hmem
      cases hmem
  refine ⟨hinv.orgAdmin, hinv.driveAdmin, ?_, ?_⟩
  · intro m hm d hd hid
    obtain ⟨d', hd', hid', hmember⟩ := hinv.valid.belongs m.scopeId m.userId ⟨m, hm, rfl⟩
    obtain rfl := hinv.valid.driveKey.eq_of_mem hd hd' (hid.trans hid'.symm)
    exact hmember
  · intro i e hresult
    have hrefused := Pool.result_follows (R := fun _ => GrantsSeen) (Q := fun _ => RefusalOf)
      hfollows hresult e rfl
    have hclean : NoWrites
        (((dirPool toLowerCase lower sha256 db requests).run sched).conf.own i) := by
      obtain hclean | hfailed := hrefused
      · exact hclean
      · exact (hcompleted i (Conf.mem_own.mp hfailed)).elim
    have htrace := Pool.admits_mem_trace (dirPool toLowerCase lower sha256 db requests) sched
    apply Pool.Admits.mono _ (Pool.admits_and.mpr ⟨hsteps, htrace⟩)
    rintro cf j r ⟨hstep, hmem⟩ rfl
    exact hstep.eq_of_reads (hclean r.1 (Conf.mem_own.mpr hmem))

end

/-! ### Two admins -/

/-- An org with the admins `a` and `b`, and a drive with the admin `a`. -/
def sampleDirectory : Directory where
  users := [⟨"a".toList, "a@x".toList⟩, ⟨"b".toList, "b@x".toList⟩]
  orgs := [⟨"org".toList, "org".toList, false⟩]
  orgMembers := [⟨"org".toList, "a".toList, .admin⟩, ⟨"org".toList, "b".toList, .admin⟩]
  drives := [⟨"drive".toList, "org".toList, "default".toList, true⟩]
  driveMembers := [⟨"drive".toList, "a".toList, .admin⟩]
  invites := []
  apiKeys := []

theorem sampleDirectory_valid :
  sampleDirectory.Valid
  := by
  refine ⟨by decide, by decide, by decide, ?_⟩
  rintro driveId userId ⟨m, hm, hkey⟩
  obtain rfl := List.mem_singleton.mp hm
  obtain ⟨rfl, rfl⟩ := Prod.mk.inj hkey
  decide

/-- Requests to demote both admins. -/
def sampleDemotions : List DirRequest :=
  [.updateOrgMemberRole "org".toList "a".toList .viewer,
    .updateOrgMemberRole "org".toList "b".toList .viewer]

def sampleDirInput : DirInput := ⟨false, 0, "id".toList, "token".toList⟩

/-- One after the other, the second demotion is refused. -/
theorem admins_kept_sampleDemotions :
  ((dirPool id id id sampleDirectory sampleDemotions).run
      ([0, 0, 0, 1, 1].map (·, sampleDirInput))).result? 1 =
      some (.error (.plain "Cannot remove the last admin from the org")) ∧
    AdminsKept id id id sampleDirectory sampleDemotions
      ([0, 0, 0, 1, 1].map (·, sampleDirInput))
  := by
  refine ⟨by decide +kernel, ?_⟩
  exact admins_kept_of_checks id id id sampleDirectory sampleDirectory_valid sampleDemotions _
    (by decide +kernel)

/-- The removal of `b` from the org, and a grant to `b` on the drive. -/
def sampleRemoval : List DirRequest :=
  [.addDriveMember "org".toList "drive".toList .viewer (.userId "b".toList),
    .removeOrgMember "org".toList "b".toList]

/-- Both demotions count two admins before either is written; and `b` is removed from the
org after `addDriveMember` has looked up the org role. -/
theorem not_admins_kept_sampleDemotions :
  ¬ AdminsKept id id id sampleDirectory sampleDemotions
      ([0, 0, 1, 1, 0, 1].map (·, sampleDirInput)) ∧
    ¬ AdminsKept id id id sampleDirectory sampleRemoval
      ([0, 0, 0, 1, 0].map (·, sampleDirInput))
  := by
  constructor
  · intro h
    have hnone : ¬ HasAdmin ((dirPool id id id sampleDirectory sampleDemotions).run
        ([0, 0, 1, 1, 0, 1].map (·, sampleDirInput))).conf.state.orgMembers "org".toList := by
      decide +kernel
    have hstart : HasAdmin sampleDirectory.orgMembers "org".toList := by decide
    exact hnone (h.orgs "org".toList (.inl hstart))
  · intro h
    have hmembers := h.members ⟨"drive".toList, "b".toList, .viewer⟩ (by decide +kernel)
      ⟨"drive".toList, "org".toList, "default".toList, true⟩ (by decide +kernel) rfl
    revert hmembers
    decide +kernel

end AgentFs

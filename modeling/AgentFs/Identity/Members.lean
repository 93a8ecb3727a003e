import AgentFs.Paths
import AgentFs.Lib.Table

/-!
# Membership tables

`org_members` and `drive_members` have one shape: who belongs to an org or a drive, and in
which role.  This module holds the statements that the identity operations run on them, and
what each does to the members and to the admins of a scope.
-/

namespace AgentFs

open Tabular

/-- A role, from the least to the most privileged. -/
inductive Role where
  | viewer
  | editor
  | admin
  deriving DecidableEq, Repr

/-- `ROLE_LEVELS`. -/
def Role.level : Role → Nat
  | .viewer => 0
  | .editor => 1
  | .admin => 2

/-- A row of `org_members` or `drive_members`; `scopeId` is the org or the drive. -/
structure Member where
  scopeId : Text
  userId : Text
  role : Role
  deriving DecidableEq, Repr

/-- The primary key of both tables. -/
def Member.key (m : Member) : Text × Text := (m.scopeId, m.userId)

/-- The higher of two roles. -/
def higherRole (stored incoming : Role) : Role :=
  if stored = .admin ∨ incoming = .admin then .admin
  else if stored = .editor ∨ incoming = .editor then .editor
  else .viewer

/-! ### Statements -/

/-- The row of a user in a scope. -/
def findMember (members : List Member) (scopeId userId : Text) : Option Member :=
  members.find? (fun m => m.key = (scopeId, userId))

/-- The role of a user in a scope. -/
def memberRole (members : List Member) (scopeId userId : Text) : Option Role :=
  (findMember members scopeId userId).map (·.role)

/-- The admins of a scope. -/
def adminsOf (members : List Member) (scopeId : Text) : List Member :=
  members.filter (fun m => m.scopeId = scopeId ∧ m.role = .admin)

/-- The upsert of `grantOrgRole` and `grantDriveRole`: a new member gets the role, a member
who is there keeps the higher one. -/
def grantRole (scopeId userId : Text) (role : Role) (members : List Member) : List Member :=
  if (findMember members scopeId userId).isSome then
    members.map (fun m =>
      if m.key = (scopeId, userId) then { m with role := higherRole m.role role } else m)
  else
    members ++ [⟨scopeId, userId, role⟩]

/-- `UPDATE .. SET role` of one member. -/
def setRole (scopeId userId : Text) (role : Role) (members : List Member) : List Member :=
  members.map (fun m => if m.key = (scopeId, userId) then { m with role := role } else m)

/-- `DELETE` of one member. -/
def removeMember (scopeId userId : Text) (members : List Member) : List Member :=
  members.filter (fun m => m.key ≠ (scopeId, userId))

/-! ### Members and admins -/

/-- The user is a member of the scope. -/
def IsMember (members : List Member) (scopeId userId : Text) : Prop :=
  ∃ m ∈ members, m.key = (scopeId, userId)

/-- The scope has an admin. -/
def HasAdmin (members : List Member) (scopeId : Text) : Prop :=
  ∃ m ∈ members, m.scopeId = scopeId ∧ m.role = .admin

/-- The scope has an admin besides the user. -/
def HasOtherAdmin (members : List Member) (scopeId userId : Text) : Prop :=
  ∃ m ∈ members, m.scopeId = scopeId ∧ m.role = .admin ∧ m.userId ≠ userId

instance (members : List Member) (scopeId userId : Text) :
    Decidable (IsMember members scopeId userId) :=
  inferInstanceAs (Decidable (∃ m ∈ members, _))

instance (members : List Member) (scopeId : Text) : Decidable (HasAdmin members scopeId) :=
  inferInstanceAs (Decidable (∃ m ∈ members, _))

instance (members : List Member) (scopeId userId : Text) :
    Decidable (HasOtherAdmin members scopeId userId) :=
  inferInstanceAs (Decidable (∃ m ∈ members, _))

section

variable {members : List Member} {scopeId userId : Text}

theorem findMember_isSome :
  (findMember members scopeId userId).isSome ↔ IsMember members scopeId userId
  := by
  unfold findMember IsMember
  rw [List.find?_isSome]
  simp

theorem findMember_mem {member : Member} (h : findMember members scopeId userId = some member) :
  member ∈ members ∧ member.key = (scopeId, userId)
  := by
  have hkey := List.find?_some h
  simp only [decide_eq_true_eq] at hkey
  exact ⟨List.mem_of_find?_eq_some h, hkey⟩

/-- An admin of a scope is the only one, or there is another. -/
theorem hasOtherAdmin_of_adminsOf (hkey : Keyed Member.key members)
    (hadmin : HasAdmin members scopeId)
    (hsole : ¬ ∃ m, adminsOf members scopeId = [m] ∧ m.userId = userId) :
  HasOtherAdmin members scopeId userId
  := by
  by_contra hnone
  have hall : ∀ m ∈ adminsOf members scopeId, m.userId = userId := by
    intro m hm
    obtain ⟨hmem, hprop⟩ := List.mem_filter.mp hm
    simp only [decide_eq_true_eq] at hprop
    by_contra hne
    exact hnone ⟨m, hmem, hprop.1, hprop.2, hne⟩
  have hle : (adminsOf members scopeId).length ≤ 1 := by
    apply hkey.length_filter_le_one (k := (scopeId, userId))
    intro m hmem hm
    have huser := hall m (List.mem_filter.mpr ⟨hmem, hm⟩)
    simp only [decide_eq_true_eq] at hm
    simp [Member.key, hm.1, huser]
  obtain ⟨m, hmem, hscope, hrole⟩ := hadmin
  have hm : m ∈ adminsOf members scopeId := by
    simp [adminsOf, hmem, hscope, hrole]
  have hone : (adminsOf members scopeId).length = 1 :=
    Nat.le_antisymm hle (List.length_pos_of_mem hm)
  obtain ⟨a, ha⟩ := List.length_eq_one_iff.mp hone
  exact hsole ⟨a, ha, hall a (by rw [ha]; exact List.mem_singleton_self a)⟩

/-- When a scope has more than one admin, there is another. -/
theorem hasOtherAdmin_of_count (hkey : Keyed Member.key members)
    (hcount : 1 < (adminsOf members scopeId).length) :
  HasOtherAdmin members scopeId userId
  := by
  apply hasOtherAdmin_of_adminsOf hkey
  · obtain ⟨m, hm⟩ := List.exists_mem_of_length_pos (Nat.zero_lt_of_lt hcount)
    obtain ⟨hmem, hprop⟩ := List.mem_filter.mp hm
    simp only [decide_eq_true_eq] at hprop
    exact ⟨m, hmem, hprop⟩
  · rintro ⟨m, hm, -⟩
    rw [hm] at hcount
    simp at hcount

/-- Without being an admin, a user leaves an admin behind. -/
theorem HasAdmin.other_of_role (h : HasAdmin members scopeId) (hkey : Keyed Member.key members)
    {m : Member} (hm : m ∈ members) (hmkey : m.key = (scopeId, userId)) (hrole : m.role ≠ .admin) :
  HasOtherAdmin members scopeId userId
  := by
  obtain ⟨a, ha, hscope, hadmin⟩ := h
  refine ⟨a, ha, hscope, hadmin, ?_⟩
  intro huser
  have hakey : a.key = (scopeId, userId) := by simp [Member.key, hscope, huser]
  obtain rfl := hkey.eq_of_mem ha hm (hakey.trans hmkey.symm)
  exact hrole hadmin

/-! ### What the statements do -/

variable {role : Role}

theorem higherRole_admin (incoming : Role) :
  higherRole .admin incoming = .admin
  := by
  simp [higherRole]

theorem keyed_grantRole (h : Keyed Member.key members) :
  Keyed Member.key (grantRole scopeId userId role members)
  := by
  unfold grantRole
  split
  · apply h.map
    intro m _
    split
    · rfl
    · rfl
  · rename_i hnone
    apply h.concat
    intro m hm hkey
    exact hnone (findMember_isSome.mpr ⟨m, hm, hkey⟩)

theorem keyed_setRole (h : Keyed Member.key members) :
  Keyed Member.key (setRole scopeId userId role members)
  := by
  apply h.map
  intro m _
  split
  · rfl
  · rfl

theorem keyed_removeMember (h : Keyed Member.key members) :
  Keyed Member.key (removeMember scopeId userId members)
  := h.filter _

/-- A map that keeps the keys keeps the members. -/
theorem isMember_map {f : Member → Member} (hf : ∀ m, (f m).key = m.key) (s u : Text) :
  IsMember (members.map f) s u ↔ IsMember members s u
  := by
  simp [IsMember, hf]

theorem isMember_grantRole (s u : Text) :
  IsMember (grantRole scopeId userId role members) s u ↔
    IsMember members s u ∨ (s, u) = (scopeId, userId)
  := by
  unfold grantRole
  split
  · rename_i hsome
    rw [isMember_map]
    · constructor
      · exact .inl
      · rintro (h | h)
        · exact h
        · cases h
          exact findMember_isSome.mp hsome
    · intro m
      split
      · rfl
      · rfl
  · simp [IsMember, Member.key, or_and_right, exists_or, eq_comm]

theorem isMember_setRole (s u : Text) :
  IsMember (setRole scopeId userId role members) s u ↔ IsMember members s u
  := by
  apply isMember_map
  intro m
  split
  · rfl
  · rfl

theorem isMember_removeMember (s u : Text) :
  IsMember (removeMember scopeId userId members) s u ↔
    IsMember members s u ∧ (s, u) ≠ (scopeId, userId)
  := by
  simp only [IsMember, removeMember, List.mem_filter, decide_eq_true_eq]
  constructor
  · rintro ⟨m, ⟨hm, hne⟩, hkey⟩
    exact ⟨⟨m, hm, hkey⟩, hkey ▸ hne⟩
  · rintro ⟨⟨m, hm, hkey⟩, hne⟩
    exact ⟨m, ⟨hm, hkey ▸ hne⟩, hkey⟩

theorem findMember_setRole (s u : Text) :
  findMember (setRole scopeId userId role members) s u =
    (findMember members s u).map (fun m =>
      if m.key = (scopeId, userId) then { m with role := role } else m)
  := by
  unfold findMember setRole
  rw [List.find?_map]
  congr 2
  funext m
  rw [Function.comp_apply]
  split
  · rfl
  · rfl

theorem findMember_removeMember {s u : Text} (h : (s, u) ≠ (scopeId, userId)) :
  findMember (removeMember scopeId userId members) s u = findMember members s u
  := by
  unfold findMember removeMember
  rw [List.find?_filter]
  congr 1
  funext m
  by_cases hkey : m.key = (s, u)
  · simp [hkey, h]
  · simp [hkey]

/-- A grant never takes an admin away. -/
theorem HasAdmin.grantRole {s : Text} (h : HasAdmin members s) :
  HasAdmin (grantRole scopeId userId role members) s
  := by
  obtain ⟨m, hm, hscope, hadmin⟩ := h
  unfold AgentFs.grantRole
  split
  · refine ⟨_, List.mem_map_of_mem hm, ?_, ?_⟩
    · split
      · exact hscope
      · exact hscope
    · split
      · simp [hadmin, higherRole_admin]
      · exact hadmin
  · exact ⟨m, List.mem_append_left _ hm, hscope, hadmin⟩

/-- A series of grants to one user. -/
theorem HasAdmin.grantRoles {s : Text} (h : HasAdmin members s) {ρ : Type} (scope : ρ → Text)
    (roleOf : ρ → Role) (grants : List ρ) :
  HasAdmin (grants.foldl
    (fun members g => AgentFs.grantRole (scope g) userId (roleOf g) members) members) s
  := by
  induction grants generalizing members with
  | nil => exact h
  | cons g grants ih => exact ih h.grantRole

theorem keyed_grantRoles (h : Keyed Member.key members) {ρ : Type} (scope : ρ → Text)
    (roleOf : ρ → Role) (grants : List ρ) :
  Keyed Member.key (grants.foldl
    (fun members g => grantRole (scope g) userId (roleOf g) members) members)
  := by
  induction grants generalizing members with
  | nil => exact h
  | cons g grants ih => exact ih (keyed_grantRole h)

theorem isMember_grantRoles {ρ : Type} (scope : ρ → Text) (roleOf : ρ → Role) (grants : List ρ)
    (s u : Text) :
  IsMember (grants.foldl
      (fun members g => grantRole (scope g) userId (roleOf g) members) members) s u ↔
    IsMember members s u ∨ ∃ g ∈ grants, (s, u) = (scope g, userId)
  := by
  induction grants generalizing members with
  | nil => simp
  | cons g grants ih =>
      rw [List.foldl_cons, ih, isMember_grantRole, or_assoc, List.exists_mem_cons_iff]

/-- Setting a role leaves every scope its admins, when the role is `admin` or the scope has
another one. -/
theorem HasAdmin.setRole {s : Text} (h : HasAdmin members s)
    (hother : role ≠ .admin → HasAdmin members scopeId → HasOtherAdmin members scopeId userId) :
  HasAdmin (setRole scopeId userId role members) s
  := by
  have hkeep : ∀ m ∈ members, m.role = .admin → m.key ≠ (scopeId, userId) ∨ role = .admin →
      HasAdmin (AgentFs.setRole scopeId userId role members) m.scopeId := by
    intro m hm hadmin hne
    refine ⟨_, List.mem_map_of_mem hm, ?_, ?_⟩
    · split
      · rfl
      · rfl
    · split
      · rename_i hkey
        obtain hne | hrole := hne
        · exact (hne hkey).elim
        · exact hrole
      · exact hadmin
  obtain ⟨m, hm, rfl, hadmin⟩ := h
  by_cases hkey : m.key = (scopeId, userId)
  · by_cases hrole : role = .admin
    · exact hkeep m hm hadmin (.inr hrole)
    · have hscope : m.scopeId = scopeId := congrArg Prod.fst hkey
      obtain ⟨a, ha, hascope, haadmin, huser⟩ := hother hrole ⟨m, hm, hscope, hadmin⟩
      have hkept := hkeep a ha haadmin (.inl (fun h => huser (congrArg Prod.snd h)))
      rw [hascope] at hkept
      rw [hscope]
      exact hkept
  · exact hkeep m hm hadmin (.inl hkey)

/-- Removing a user from some scopes, as a filter. -/
theorem foldl_removeMember (userId : Text) (scopeIds : List Text) (members : List Member) :
  scopeIds.foldl (fun members scopeId => AgentFs.removeMember scopeId userId members) members =
    members.filter (fun m => ¬ (m.scopeId ∈ scopeIds ∧ m.userId = userId))
  := by
  induction scopeIds generalizing members with
  | nil => simp
  | cons s scopeIds ih =>
      rw [List.foldl_cons, ih, AgentFs.removeMember, List.filter_filter]
      apply List.filter_congr
      intro m _
      simp only [Member.key, List.mem_cons, Bool.decide_and, ne_eq, Prod.mk.injEq, decide_not]
      by_cases hs : m.scopeId = s <;> by_cases hu : m.userId = userId <;> simp [hs, hu]

/-- Removing a user from some scopes leaves every scope its admins, when each of them has
another one. -/
theorem HasAdmin.removeMembers {s : Text} (h : HasAdmin members s) {scopeIds : List Text}
    (hother : ∀ scopeId ∈ scopeIds, HasAdmin members scopeId →
      HasOtherAdmin members scopeId userId) :
  HasAdmin (scopeIds.foldl (fun members scopeId => removeMember scopeId userId members) members) s
  := by
  rw [foldl_removeMember]
  have hkeep : ∀ m ∈ members, m.role = .admin → ¬ (m.scopeId ∈ scopeIds ∧ m.userId = userId) →
      HasAdmin (members.filter (fun m => ¬ (m.scopeId ∈ scopeIds ∧ m.userId = userId)))
        m.scopeId := by
    intro m hm hadmin hne
    exact ⟨m, List.mem_filter.mpr ⟨hm, decide_eq_true hne⟩, rfl, hadmin⟩
  obtain ⟨m, hm, rfl, hadmin⟩ := h
  by_cases hremoved : m.scopeId ∈ scopeIds ∧ m.userId = userId
  · obtain ⟨a, ha, hscope, haadmin, huser⟩ := hother _ hremoved.1 ⟨m, hm, rfl, hadmin⟩
    rw [← hscope]
    exact hkeep a ha haadmin (fun h => huser h.2)
  · exact hkeep m hm hadmin hremoved

/-- Removing a member leaves every scope its admins, when the scope has another one. -/
theorem HasAdmin.removeMember {s : Text} (h : HasAdmin members s)
    (hother : HasAdmin members scopeId → HasOtherAdmin members scopeId userId) :
  HasAdmin (removeMember scopeId userId members) s
  := by
  apply @HasAdmin.removeMembers _ _ _ h [scopeId]
  intro s hs
  obtain rfl := List.mem_singleton.mp hs
  exact hother

end

end AgentFs

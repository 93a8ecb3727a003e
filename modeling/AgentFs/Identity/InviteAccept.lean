import AgentFs.Identity.System

/-!
# Inviting and accepting

`inviteToOrg` resolves the email of an invite as it was typed; `acceptInvite` resolves the
email that was stored, which is in lower case.  For accounts whose emails differ in letter
case only, the two can name different accounts.  The invite is accepted by the account it
was resolved to, and by no other, exactly when the stored email still selects that account.
-/

namespace AgentFs

open Async Tabular

/-! ### Resolving an email -/

/-- What `resolveUserByEmail` finds in a table of users. -/
def lookupEmail (lower : Text → Text) (email : Text) (users : List UserRow) : EmailLookup :=
  match users.find? (fun u => u.email = trim email) with
  | some user => .found user
  | none =>
      match users.filter (fun u => lower u.email = lower (trim email)) with
      | [] => .none
      | [user] => .found user
      | candidates => .ambiguous candidates

theorem resolveUserByEmail_alone (lower : Text → Text) (email : Text) {x : DirInput}
    (hx : x.fail = false) (db : Directory) :
  (resolveUserByEmail lower email).run.alone x db = (.ok (lookupEmail lower email db.users), db)
  := by
  unfold resolveUserByEmail lookupEmail
  rw [Fallible.alone_bind _ (select_alone hx rfl)]
  cases db.users.find? (fun u => u.email = trim email) with
  | some user => rfl
  | none =>
      dsimp only
      rw [Fallible.alone_bind _ (select_alone hx rfl)]
      generalize db.users.filter (fun u => lower u.email = lower (trim email)) = candidates
      match candidates with
      | [] => rfl
      | [user] => rfl
      | _ :: _ :: _ => rfl

/-! ### What an email selects -/

/-- The email is the account's own, or it is no account's own and the account is the only
one that it matches when letter case is ignored. -/
def Selects (lower : Text → Text) (users : List UserRow) (email : Text) (user : UserRow) :
    Prop :=
  user.email = email ∨
    (∀ v ∈ users, v.email ≠ email) ∧ ∀ v ∈ users, lower v.email = lower email ↔ v = user

instance (lower : Text → Text) (users : List UserRow) (email : Text) (user : UserRow) :
    Decidable (Selects lower users email user) :=
  inferInstanceAs (Decidable (_ ∨ _))

theorem eq_singleton_of_filter {users : List UserRow} (hids : Keyed UserRow.id users)
    {p : UserRow → Bool} {user : UserRow} (hmem : user ∈ users)
    (h : ∀ v ∈ users, p v = true ↔ v = user) :
  users.filter p = [user]
  := by
  have hnodup : users.Nodup := hids.of_map
  have hfilter := hnodup.filter p
  have hperm : (users.filter p).Perm [user] := by
    rw [List.perm_ext_iff_of_nodup hfilter (List.nodup_singleton _)]
    intro v
    rw [List.mem_filter, List.mem_singleton]
    constructor
    · intro hv
      exact (h v hv.1).mp hv.2
    · rintro rfl
      exact ⟨hmem, (h v hmem).mpr rfl⟩
  exact List.perm_singleton.mp hperm

/-- An email is resolved to the account that it selects. -/
theorem lookupEmail_eq_found_iff {lower : Text → Text} {users : List UserRow}
    (hids : Keyed UserRow.id users) (hemails : Keyed UserRow.email users) {user : UserRow}
    (hmem : user ∈ users) (email : Text) :
  lookupEmail lower email users = .found user ↔ Selects lower users (trim email) user
  := by
  unfold lookupEmail Selects
  cases hfind : users.find? (fun u => u.email = trim email) with
  | some exact =>
      have hexact := List.find?_some hfind
      rw [decide_eq_true_iff] at hexact
      have hexactmem := List.mem_of_find?_eq_some hfind
      constructor
      · intro heq
        cases heq
        exact .inl hexact
      · intro hselects
        cases hselects with
        | inl hown =>
            rw [List.inj_on_of_nodup_map hemails hexactmem hmem (hexact.trans hown.symm)]
        | inr hnone => exact absurd hexact (hnone.1 exact hexactmem)
  | none =>
      have hnone : ∀ v ∈ users, v.email ≠ trim email := by
        intro v hv
        have hv := List.find?_eq_none.mp hfind v hv
        simpa using hv
      dsimp only
      constructor
      · intro heq
        right
        refine ⟨hnone, ?_⟩
        have hsingle : users.filter (fun u => lower u.email = lower (trim email)) = [user] := by
          split at heq
          · cases heq
          · rename_i v hv
            cases heq
            exact hv
          · cases heq
        intro v hv
        have hiff : v ∈ users.filter (fun u => lower u.email = lower (trim email)) ↔ v = user := by
          rw [hsingle, List.mem_singleton]
        rw [List.mem_filter, decide_eq_true_iff] at hiff
        rw [← hiff]
        exact ⟨fun h => ⟨hv, h⟩, And.right⟩
      · intro hselects
        cases hselects with
        | inl hown => exact absurd hown (hnone user hmem)
        | inr hsole =>
            have hsingle : users.filter (fun u => lower u.email = lower (trim email)) =
                [user] := by
              apply eq_singleton_of_filter hids hmem
              intro v hv
              rw [decide_eq_true_iff]
              exact hsole.2 v hv
            rw [hsingle]

theorem mem_of_lookupEmail {lower : Text → Text} {email : Text} {users : List UserRow}
    {user : UserRow} (h : lookupEmail lower email users = .found user) :
  user ∈ users
  := by
  unfold lookupEmail at h
  split at h
  · rename_i exact hfind
    cases h
    exact List.mem_of_find?_eq_some hfind
  · split at h
    · cases h
    · rename_i single hsingle
      cases h
      apply List.mem_of_mem_filter (p := fun u => lower u.email = lower (trim email))
      rw [hsingle]
      exact List.mem_singleton_self _
    · cases h

/-! ### What an invite stores -/

/-- The open invite of a token. -/
def Directory.pendingInvite (sha256 : Text → Text) (token : Text) (db : Directory) :
    Option InviteRow :=
  db.invites.find? (fun i => i.tokenHash = sha256 token ∧ i.Open)

/-- The invite that `createPendingInvite` leaves open for the token that it answers. -/
theorem createPendingInvite_alone {toLowerCase sha256 : Text → Text} {orgId email : Text}
    {role : Role} {drives drives' : List DriveGrant} {invitedBy id email' token : Text}
    {expiresAt : Nat} {x : DirInput} {db db' : Directory}
    (h : (createPendingInvite toLowerCase sha256 orgId email role drives invitedBy).run.alone x
      db = (.ok (.pending id email' token expiresAt drives'), db')) :
  ∃ row, db'.pendingInvite sha256 token = some row ∧ row.orgId = orgId ∧
    row.email = normalizeInviteEmail toLowerCase email ∧ row.expiresAt = storedTime expiresAt
  := by
  obtain ⟨-, action, h⟩ := statement_alone_ok h
  dsimp only at h
  split at h
  · cases h
  · rename_i hfresh
    cases h
    rw [Directory.pendingInvite, List.find?_append, List.find?_eq_none.mpr, Option.none_or,
      List.find?_cons_of_pos]
    · exact ⟨_, rfl, rfl, rfl, rfl⟩
    · exact decide_eq_true ⟨rfl, rfl, rfl⟩
    · intro i hi hsame
      rw [decide_eq_true_iff] at hsame
      exact hfresh ⟨i, hi, .inr (.inl hsame.1)⟩

/-- The invite that `inviteToOrg` leaves open for the token that it answers. -/
theorem inviteToOrg_alone {toLowerCase lower sha256 : Text → Text} {params : InviteParams}
    {id email token : Text} {expiresAt : Nat} {drives : List DriveGrant} {x : DirInput}
    {db db' : Directory}
    (h : (inviteToOrg toLowerCase lower sha256 params).run.alone x db =
      (.ok (.pending id email token expiresAt drives), db')) :
  ∃ row, db'.pendingInvite sha256 token = some row ∧ row.orgId = params.orgId ∧
    row.email = normalizeInviteEmail toLowerCase params.email ∧
    row.expiresAt = storedTime expiresAt
  := by
  obtain ⟨lookup, db₁, -, h⟩ := Fallible.alone_bind_ok h
  cases lookup with
  | ambiguous candidates => cases h
  | none =>
      dsimp only at h
      split at h
      · cases h
      · obtain ⟨grants, db₂, -, h⟩ := Fallible.alone_bind_ok h
        exact createPendingInvite_alone h
  | found user =>
      obtain ⟨grants, db₂, -, h⟩ := Fallible.alone_bind_ok h
      obtain ⟨orgRole, db₃, -, h⟩ := Fallible.alone_bind_ok h
      split at h
      · exact createPendingInvite_alone h
      · obtain ⟨-, action, h⟩ := statement_alone_ok h
        obtain ⟨⟨role, db₄⟩, -, h⟩ := bind_eq_ok_iff.mp h
        obtain ⟨⟨held, db₅⟩, -, h⟩ := bind_eq_ok_iff.mp h
        cases h

/-! ### Accepting -/

theorem bind_ok {α β : Type} {x : Except IdentityError α} {g : α → Except IdentityError β}
    {a : α} (h : x = .ok a) :
  (x >>= g) = g a
  := by
  rw [h]
  rfl

theorem grantOrgRole_ok {orgId userId : Text} (role : Role) {db : Directory}
    (horg : ∃ o ∈ db.orgs, o.id = orgId) (huser : ∃ u ∈ db.users, u.id = userId) :
  ∃ held, grantOrgRole orgId userId role db =
    .ok (held, { db with orgMembers := grantRole orgId userId role db.orgMembers })
  := by
  unfold grantOrgRole
  rw [if_pos (.inr ⟨horg, huser⟩)]
  exact ⟨_, rfl⟩

theorem grantDriveRoles_ok {userId : Text} {grants : List DriveGrant} (db : Directory)
    (hdrives : ∀ g ∈ grants, ∃ d ∈ db.drives, d.id = g.driveId)
    (huser : ∃ u ∈ db.users, u.id = userId) :
  ∃ e, grantDriveRoles userId grants db = .ok e
  := by
  induction grants generalizing db with
  | nil => exact ⟨_, rfl⟩
  | cons grant grants ih =>
      have hone : ∃ held, grantDriveRole grant.driveId userId grant.role db =
          .ok (held, { db with
            driveMembers := grantRole grant.driveId userId grant.role db.driveMembers }) := by
        unfold grantDriveRole
        rw [if_pos (.inr ⟨hdrives grant List.mem_cons_self, huser⟩)]
        exact ⟨_, rfl⟩
      obtain ⟨held, hone⟩ := hone
      obtain ⟨e, hrest⟩ := ih
        { db with driveMembers := grantRole grant.driveId userId grant.role db.driveMembers }
        (fun g hg => hdrives g (List.mem_cons_of_mem _ hg)) huser
      unfold grantDriveRoles
      rw [bind_ok hone]
      dsimp only
      rw [bind_ok hrest]
      exact ⟨_, rfl⟩

/-- The transaction of `acceptInvite` grants the roles of an invite. -/
theorem acceptInvite_grants_ok {invite : InviteRow} {userId : Text} {granted : List DriveGrant}
    (db : Directory) (skipped : List Text) (horg : ∃ o ∈ db.orgs, o.id = invite.orgId)
    (huser : ∃ u ∈ db.users, u.id = userId)
    (hdrives : ∀ g ∈ granted, ∃ d ∈ db.drives, d.id = g.driveId) :
  ∃ e, (do
    let (role, db₂) ← grantOrgRole invite.orgId userId invite.orgRole db
    let (held, db₃) ← grantDriveRoles userId granted db₂
    pure (.accepted invite.orgId role held skipped,
      .granted invite.orgId userId granted, db₃) : Except IdentityError (Effect DirAnswer)) = .ok e
  := by
  obtain ⟨role, horgRole⟩ := grantOrgRole_ok invite.orgRole horg huser
  obtain ⟨e, hroles⟩ := grantDriveRoles_ok
    { db with orgMembers := grantRole invite.orgId userId invite.orgRole db.orgMembers }
    hdrives huser
  rw [bind_ok horgRole]
  dsimp only
  rw [bind_ok hroles]
  exact ⟨_, rfl⟩

/-- The account is the one that accepts an invite with the token. -/
def Accepts (lower sha256 : Text → Text) (x : DirInput) (db : Directory) (token userId : Text) :
    Prop :=
  ∃ answer db', (acceptInvite lower sha256 token userId).run.alone x db = (.ok answer, db')

/-- An open invite of an org that is there is accepted by the account that its email
resolves to. -/
theorem accepts_iff {lower sha256 : Text → Text} {x : DirInput} {db : Directory}
    {token userId : Text} {row : InviteRow} (hx : x.fail = false) (htoken : IsInviteToken token)
    (hrow : db.pendingInvite sha256 token = some row) (hnow : x.now < row.expiresAt)
    (horg : ∃ o ∈ db.orgs, o.id = row.orgId) :
  Accepts lower sha256 x db token userId ↔
    ∃ user, lookupEmail lower row.email db.users = .found user ∧ user.id = userId
  := by
  have hget : (getInviteByToken sha256 token).run.alone x db = (.ok (some row), db) := by
    unfold getInviteByToken
    rw [if_pos htoken]
    apply select_alone hx
    show pure (Option.filter _ (db.pendingInvite sha256 token)) = _
    rw [hrow, Option.filter_some, if_pos (decide_eq_true hnow)]
    rfl
  have hresolve := resolveUserByEmail_alone lower row.email hx db
  unfold Accepts acceptInvite
  rw [Fallible.alone_bind _ hget]
  dsimp only
  rw [Fallible.alone_bind _ hresolve]
  cases hlookup : lookupEmail lower row.email db.users with
  | none =>
      constructor
      · rintro ⟨answer, db', h⟩
        cases h
      · rintro ⟨user, h, -⟩
        cases h
  | ambiguous candidates =>
      constructor
      · rintro ⟨answer, db', h⟩
        cases h
      · rintro ⟨user, h, -⟩
        cases h
  | found user =>
      dsimp only
      split
      · rename_i hne
        constructor
        · rintro ⟨answer, db', h⟩
          cases h
        · rintro ⟨user', h, hid⟩
          cases h
          exact absurd hid hne
      · rename_i hid
        rw [not_not] at hid
        constructor
        · intro _
          exact ⟨user, rfl, hid⟩
        · intro _
          have huser : ∃ u ∈ db.users, u.id = userId := ⟨user, mem_of_lookupEmail hlookup, hid⟩
          have hopen := List.find?_some hrow
          rw [decide_eq_true_iff] at hopen
          have hmem := List.mem_of_find?_eq_some hrow
          rw [Fallible.alone_bind _ (statement_alone hx db)]
          unfold transaction
          rw [statement_alone hx, if_pos ⟨row, hmem, rfl, hopen.2⟩]
          have hdrives : ∀ g ∈ row.drives.filter (fun g =>
              g.driveId ∈ (db.drives.filter (fun d => d.orgId = row.orgId)).map (·.id)),
              ∃ d ∈ db.drives, d.id = g.driveId := by
            intro g hg
            have hin := List.of_mem_filter hg
            rw [decide_eq_true_iff] at hin
            obtain ⟨d, hd, hid⟩ := List.mem_map.mp hin
            exact ⟨d, List.mem_of_mem_filter hd, hid⟩
          obtain ⟨e, he⟩ := acceptInvite_grants_ok
            { db with
              invites := db.invites.map (fun i =>
                if i.id = row.id ∧ i.Open then
                  { i with acceptedAt := some (storedTime x.now), acceptedBy := some userId }
                else i) }
            _ horg huser hdrives
          rw [he]
          exact ⟨_, _, rfl⟩

/-! ### Agreement -/

/-- An invite that was resolved to an account is accepted by it, and by no other, exactly
when the email that was stored for the invite selects the account as well. -/
theorem invite_accepted_by_resolved_iff
    {toLowerCase lower sha256 : Text → Text} {params : InviteParams} {x x' : DirInput}
    {db db₁ db' : Directory} {u : UserRow} {id email token : Text} {expiresAt : Nat}
    {drives : List DriveGrant}
    (hids : Keyed UserRow.id db.users) (hemails : Keyed UserRow.email db.users)
    (hresolve : (resolveUserByEmail lower params.email).run.alone x db = (.ok (.found u), db))
    (hinvite : (inviteToOrg toLowerCase lower sha256 params).run.alone x db =
      (.ok (.pending id email token expiresAt drives), db₁))
    (htoken : IsInviteToken token) (husers : db'.users = db.users)
    (hopen : db'.pendingInvite sha256 token = db₁.pendingInvite sha256 token)
    (horg : ∃ o ∈ db'.orgs, o.id = params.orgId)
    (hnow : x'.now < storedTime expiresAt) (hx' : x'.fail = false) :
  (Accepts lower sha256 x' db' token u.id ∧
      ∀ userId, userId ≠ u.id → ¬ Accepts lower sha256 x' db' token userId) ↔
    Selects lower db.users (trim (normalizeInviteEmail toLowerCase params.email)) u
  := by
  obtain ⟨row, hrow, hrowOrg, hrowEmail, hrowExpires⟩ := inviteToOrg_alone hinvite
  obtain ⟨lookup, t, hselect, -⟩ := Fallible.alone_bind_ok hresolve
  have hx : x.fail = false := (statement_alone_ok hselect).1
  rw [resolveUserByEmail_alone lower params.email hx] at hresolve
  have hmem : u ∈ db.users := mem_of_lookupEmail (Except.ok.inj (Prod.mk.inj hresolve).1)
  have haccepts : ∀ userId, Accepts lower sha256 x' db' token userId ↔
      ∃ user, lookupEmail lower row.email db.users = .found user ∧ user.id = userId := by
    intro userId
    rw [accepts_iff hx' htoken (hopen.trans hrow) (by rwa [hrowExpires]) (by rwa [hrowOrg]),
      husers]
  rw [← hrowEmail, ← lookupEmail_eq_found_iff hids hemails hmem]
  constructor
  · rintro ⟨haccepted, -⟩
    obtain ⟨user, hfound, hid⟩ := (haccepts u.id).mp haccepted
    obtain rfl := List.inj_on_of_nodup_map hids (mem_of_lookupEmail hfound) hmem hid
    exact hfound
  · intro hfound
    constructor
    · exact (haccepts u.id).mpr ⟨u, hfound, rfl⟩
    · intro userId hne haccepted
      obtain ⟨user, hfound', hid⟩ := (haccepts userId).mp haccepted
      rw [hfound] at hfound'
      cases hfound'
      exact hne hid.symm

/-- An org whose accounts have the emails, with ids `0`, `1` and so on. -/
def sampleAccounts (emails : List String) : Directory where
  users := emails.zipIdx.map (fun (email, i) => ⟨(toString i).toList, email.toList⟩)
  orgs := [⟨"o".toList, "org".toList, false⟩]
  orgMembers := []
  drives := []
  driveMembers := []
  invites := []
  apiKeys := []

def sampleInvite (email : String) : InviteParams where
  orgId := "o".toList
  email := email.toList
  role := .editor
  invitedBy := some "admin".toList

def sampleInviteInput : DirInput :=
  ⟨false, 1000, "i".toList, List.replicate 43 'a'⟩

/-- The row of the sample invite. -/
def sampleInviteRow (email : String) : InviteRow where
  id := "i".toList
  orgId := "o".toList
  email := email.toList
  orgRole := .editor
  drives := []
  tokenHash := sampleInviteInput.token
  createdBy := "admin".toList
  createdAt := 1000
  expiresAt := 604801000
  acceptedAt := none
  acceptedBy := none
  revokedAt := none

/-- The sample accounts and the sample invite, with the email as it is stored. -/
def sampleInvited (emails : List String) (email : String) : Directory :=
  { sampleAccounts emails with invites := [sampleInviteRow email] }

/-- The sample token is accepted by the account. -/
def SampleAccepts (emails : List String) (email : String) (userId : Text) : Prop :=
  Accepts (·.map Char.toLower) (fun t => t) sampleInviteInput (sampleInvited emails email)
    sampleInviteInput.token userId

/-- The invite of an email in another letter case is accepted by the only account that it
matches. -/
theorem invite_accepted_by_resolved_iff_sampleInvite :
  SampleAccepts ["Alice@x.io", "bob@x.io"] "alice@x.io" "0".toList ∧
    ∀ userId, userId ≠ "0".toList →
      ¬ SampleAccepts ["Alice@x.io", "bob@x.io"] "alice@x.io" userId
  := by
  have hresolve : (resolveUserByEmail (·.map Char.toLower)
      (sampleInvite "ALICE@x.io").email).run.alone sampleInviteInput
      (sampleAccounts ["Alice@x.io", "bob@x.io"]) =
      (.ok (.found ⟨"0".toList, "Alice@x.io".toList⟩),
        sampleAccounts ["Alice@x.io", "bob@x.io"]) := rfl
  have hinvite : (inviteToOrg (·.map Char.toLower) (·.map Char.toLower) (fun t => t)
      (sampleInvite "ALICE@x.io")).run.alone sampleInviteInput
      (sampleAccounts ["Alice@x.io", "bob@x.io"]) =
      (.ok (.pending "i".toList "alice@x.io".toList sampleInviteInput.token 604801000 []),
        sampleInvited ["Alice@x.io", "bob@x.io"] "alice@x.io") := by decide +kernel
  have htoken : IsInviteToken sampleInviteInput.token := by
    simp [IsInviteToken, sampleInviteInput]
  have hnow : sampleInviteInput.now < storedTime 604801000 := by decide
  have horg : ∃ o ∈ (sampleInvited ["Alice@x.io", "bob@x.io"] "alice@x.io").orgs,
      o.id = (sampleInvite "ALICE@x.io").orgId := by decide
  have husers : (sampleInvited ["Alice@x.io", "bob@x.io"] "alice@x.io").users =
      (sampleAccounts ["Alice@x.io", "bob@x.io"]).users := rfl
  apply (invite_accepted_by_resolved_iff (by decide) (by decide) hresolve hinvite htoken husers
    rfl horg hnow rfl).mpr
  decide +kernel

/-- Of two accounts, the one that the email names is the one that the invite is resolved to;
it is refused, and the account in lower case is let in. -/
theorem invite_of_resolved_account_refused :
  (resolveUserByEmail (·.map Char.toLower) (sampleInvite "Alice@x.io").email).run.alone
      sampleInviteInput (sampleAccounts ["Alice@x.io", "alice@x.io"]) =
      (.ok (.found ⟨"0".toList, "Alice@x.io".toList⟩),
        sampleAccounts ["Alice@x.io", "alice@x.io"]) ∧
    (inviteToOrg (·.map Char.toLower) (·.map Char.toLower) (fun t => t)
      (sampleInvite "Alice@x.io")).run.alone sampleInviteInput
      (sampleAccounts ["Alice@x.io", "alice@x.io"]) =
      (.ok (.pending "i".toList "alice@x.io".toList sampleInviteInput.token 604801000 []),
        sampleInvited ["Alice@x.io", "alice@x.io"] "alice@x.io") ∧
    ¬ SampleAccepts ["Alice@x.io", "alice@x.io"] "alice@x.io" "0".toList ∧
    SampleAccepts ["Alice@x.io", "alice@x.io"] "alice@x.io" "1".toList
  := by
  have htoken : IsInviteToken sampleInviteInput.token := by
    simp [IsInviteToken, sampleInviteInput]
  have hrow : (sampleInvited ["Alice@x.io", "alice@x.io"] "alice@x.io").pendingInvite (fun t => t)
      sampleInviteInput.token = some (sampleInviteRow "alice@x.io") := by decide +kernel
  have hnow : sampleInviteInput.now < (sampleInviteRow "alice@x.io").expiresAt := by decide
  have horg : ∃ o ∈ (sampleInvited ["Alice@x.io", "alice@x.io"] "alice@x.io").orgs,
      o.id = (sampleInviteRow "alice@x.io").orgId := by decide
  have hfound : lookupEmail (·.map Char.toLower) "alice@x.io".toList
      (sampleAccounts ["Alice@x.io", "alice@x.io"]).users =
      .found ⟨"1".toList, "alice@x.io".toList⟩ := by decide +kernel
  constructor
  · rfl
  · constructor
    · decide +kernel
    · constructor
      · intro haccepts
        obtain ⟨user, hfound', hid⟩ := (accepts_iff rfl htoken hrow hnow horg).mp haccepts
        have heq := EmailLookup.found.inj (hfound.symm.trans hfound')
        rw [← heq] at hid
        revert hid
        decide
      · apply (accepts_iff rfl htoken hrow hnow horg).mpr
        exact ⟨_, hfound, rfl⟩

end AgentFs

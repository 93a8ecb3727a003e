import AgentFs.Context
import AgentFs.Ops.Content
import AgentFs.Webhooks.Outbox

/-!
# Share links

The tables and functions of `ops/share.ts`.  A share is found by the hash of its token; a
view-limited share counts its views and hands out, with every counted view, a grant for the
file bytes.  Timestamp columns hold seconds, the clock is in milliseconds.
-/

namespace AgentFs

def shareDefaultTtlSeconds : Nat := 86400

/-- What `expires_at` holds for a link that never expires: the year 2999, in seconds. -/
def shareNeverExpiresAt : Nat := 32472144000

/-- How long the bytes of a view-limited link stay reachable after a counted view. -/
def shareViewGrantTtlSeconds : Nat := 3600

/-! ### Tables -/

/-- `file`: one file.  `site`: a folder. -/
inductive ShareKind where
  | file
  | site
  deriving DecidableEq, Repr

/-- A row of `shares`; the primary key is `id`, and `token_hash` is UNIQUE. -/
structure ShareRow where
  id : Text
  orgId : Text
  driveId : Text
  path : Text
  kind : ShareKind
  tokenHash : Text
  expiresAt : Nat
  neverExpires : Bool
  maxViews : Option Nat
  views : Nat
  lastViewedAt : Option Nat
  createdBy : Text
  createdAt : Nat
  revokedAt : Option Nat
  revokedBy : Option Text
  deriving DecidableEq, Repr

/-- A row of `share_view_grants`; the primary key is `grant_hash`. -/
structure GrantRow where
  grantHash : Text
  shareId : Text
  expiresAt : Nat
  createdAt : Nat
  deriving DecidableEq, Repr

structure ShareTables where
  shares : List ShareRow
  grants : List GrantRow
  deriving DecidableEq, Repr

def ShareTables.empty : ShareTables := ⟨[], []⟩

/-! ### Tokens -/

/-- Cheap shape check: 43 characters of the base64url alphabet. -/
def IsWellFormedShareToken (token : Text) : Prop :=
  token.length = 43 ∧ ∀ c ∈ token, c.isAlphanum ∨ c = '_' ∨ c = '-'

instance (token : Text) : Decidable (IsWellFormedShareToken token) :=
  @instDecidableAnd _ _ _ (List.decidableBAll _ token)

/-- The segment after the first `/share/` or `/site/` that has one. -/
def linkSegment : Text → Option Text
  | [] => none
  | c :: text =>
      let after :=
        if "/share/".toList <+: c :: text then (c :: text).drop 7
        else if "/site/".toList <+: c :: text then (c :: text).drop 6
        else []
      let segment := after.takeWhile (fun c => c ≠ '/' ∧ c ≠ '?' ∧ c ≠ '#')
      if segment = [] then linkSegment text else some segment

/-- Accept a bare token or a full share or site URL. -/
def extractShareToken (input : Text) : Option Text :=
  let trimmed := trim input
  let candidate := (linkSegment trimmed).getD trimmed
  if IsWellFormedShareToken candidate then some candidate else none

/-! ### The state of a share -/

inductive ShareState where
  | active
  | revoked
  | expired
  | exhausted
  deriving DecidableEq, Repr

/-- Why a share can or cannot be opened right now. -/
def getShareState (share : ShareRow) (now : Nat) : ShareState :=
  if share.revokedAt ≠ none then .revoked
  else if share.expiresAt * 1000 ≤ now then .expired
  else if ∃ maxViews ∈ share.maxViews, maxViews ≤ share.views then .exhausted
  else .active

/-- The guard of the UPDATE that counts a view. -/
def ShareRow.CanCount (hash : Text) (now : Nat) (share : ShareRow) : Prop :=
  share.tokenHash = hash ∧ share.revokedAt = none ∧ seconds now < share.expiresAt ∧
    ∀ maxViews ∈ share.maxViews, share.views < maxViews

instance (hash : Text) (now : Nat) (share : ShareRow) : Decidable (share.CanCount hash now) :=
  inferInstanceAs (Decidable (_ ∧ _))

/-- The SET part of that UPDATE. -/
def ShareRow.countView (now : Nat) (share : ShareRow) : ShareRow :=
  { share with views := share.views + 1, lastViewedAt := some (seconds now) }

/-- What a counted view returns: the share with its new counters and, for a view-limited
share, the token of the grant and the row that was stored for it. -/
structure OpenedShareView where
  share : ShareRow
  grant : Option (Text × GrantRow)
  deriving DecidableEq, Repr

/-- Why bytes are refused. -/
inductive ByteRefusal where
  | notFound
  | gone
  | grantRequired
  deriving DecidableEq, Repr

section

variable (sha256 : Bytes → Text)

/-- SHA-256 of the token, the only form that is ever stored. -/
def hashShareToken (token : Text) : Text :=
  sha256 (textEncode token)

def findShareByToken (tables : ShareTables) (token : Text) : Option ShareRow :=
  if IsWellFormedShareToken token then
    tables.shares.find? (fun share => share.tokenHash = hashShareToken sha256 token)
  else none

/-- Atomically spend one view: the guards and the increment are one UPDATE. -/
def consumeShareView (tables : ShareTables) (token : Text) (now : Nat) :
    Option ShareRow × ShareTables :=
  if IsWellFormedShareToken token then
    let hash := hashShareToken sha256 token
    (((tables.shares.filter (fun share => share.CanCount hash now)).map
        (ShareRow.countView now)).head?,
      { tables with shares := tables.shares.map (fun share =>
          if share.CanCount hash now then share.countView now else share) })
  else (none, tables)

/-- The grant of a view-limited share: it expires an hour from now, or with the share. -/
def shareViewGrant (share : ShareRow) (grantToken : Text) (now : Nat) : GrantRow where
  grantHash := hashShareToken sha256 grantToken
  shareId := share.id
  expiresAt := min (seconds now + shareViewGrantTtlSeconds) share.expiresAt
  createdAt := seconds now

/-- Spend one view, purge the expired grants and, for a view-limited link, store the grant
of this view.  It is one transaction: a grant hash that is taken throws, and nothing is
changed. -/
def openShareView (tables : ShareTables) (token grantToken : Text) (now : Nat) :
    Except SqlError (Option OpenedShareView × ShareTables) :=
  match consumeShareView sha256 tables token now with
  | (none, tables) => .ok (none, tables)
  | (some share, counted) =>
      let purged := { counted with
        grants := counted.grants.filter (fun grant => seconds now < grant.expiresAt) }
      if share.maxViews = none then .ok (some ⟨share, none⟩, purged)
      else
        let row := shareViewGrant sha256 share grantToken now
        if row.grantHash ∈ purged.grants.map (·.grantHash) then
          .error (.unique .shareViewGrants)
        else
          .ok (some ⟨share, some (grantToken, row)⟩,
            { purged with grants := purged.grants ++ [row] })

/-- There is an unexpired grant of the share with the hash of the presented token. -/
def HasGrant (tables : ShareTables) (share : ShareRow) (grant : Text) (now : Nat) : Prop :=
  ∃ row ∈ tables.grants, row.grantHash = hashShareToken sha256 grant ∧
    row.shareId = share.id ∧ seconds now < row.expiresAt

instance (tables : ShareTables) (share : ShareRow) (grant : Text) (now : Nat) :
    Decidable (HasGrant sha256 tables share grant now) :=
  inferInstanceAs (Decidable (∃ _ ∈ _, _))

/-- May the file bytes of this share be fetched right now?  Read-only. -/
def authorizeShareBytes (tables : ShareTables) (token : Text) (grant : Option Text)
    (now : Nat) : Except ByteRefusal ShareRow :=
  match findShareByToken sha256 tables token with
  | none => .error .notFound
  | some share =>
      let state := getShareState share now
      if state = .revoked ∨ state = .expired then .error .gone
      else if share.maxViews = none then .ok share
      else
        let denied := if state = .exhausted then .gone else .grantRequired
        match grant with
        | none => .error denied
        | some grant =>
            if IsWellFormedShareToken grant ∧ HasGrant sha256 tables share grant now then
              .ok share
            else .error denied

end

/-- A comparison of a timestamp column with the clock, floored to seconds. -/
theorem seconds_lt_iff {now expiresAt : Nat} :
  seconds now < expiresAt ↔ now < expiresAt * 1000
  := Nat.div_lt_iff_lt_mul (by decide)

/-! ### Presigned URLs -/

/-- A time, `none` for an invalid `Date`. -/
abbrev DateValue := Option Int

/-- The range of the time values of a `Date`. -/
def dateOfMs (ms : Int) : DateValue :=
  if -8640000000000000 ≤ ms ∧ ms ≤ 8640000000000000 then some ms else none

/-- How many seconds a presigned URL for this share may live, `none` once less than a
second is left.  An expiry that is not a valid date leaves `NaN`, which is not at least one. -/
def capUrlTtlSeconds (share : ShareRow) (capSeconds : Nat) (now : Nat) : Option Nat :=
  let remaining := (share.expiresAt * 1000 - now) / 1000
  let ttl := min capSeconds remaining
  if dateOfMs (share.expiresAt * 1000) ≠ none ∧ 1 ≤ ttl then some ttl else none

/-- The day number of the first day of a year. -/
def dayFromYear (year : Int) : Int :=
  365 * (year - 1970) + (year - 1969) / 4 - (year - 1901) / 100 + (year - 1601) / 400

/-- The days of a year before the first of a month, counted from `0`. -/
def dayOfMonthStart (year month : Int) : Int :=
  let leap := (year % 4 = 0 ∧ year % 100 ≠ 0) ∨ year % 400 = 0
  [0, 31, 59, 90, 120, 151, 181, 212, 243, 273, 304, 334].getD month.toNat 0 +
    (if leap ∧ 2 ≤ month then 1 else 0)

/-- `Date.UTC`, in milliseconds; months count from `0` and run over into the years. -/
def dateUTC (year month day hour minute second : Int) : Int :=
  let year := (if 0 ≤ year ∧ year ≤ 99 then 1900 + year else year) + month / 12
  let days := dayFromYear year + dayOfMonthStart year (month % 12) + day - 1
  (((days * 24 + hour) * 60 + minute) * 60 + second) * 1000

/-- The value of a string of decimal digits. -/
def digits? (text : Text) : Option Nat :=
  if text ≠ [] ∧ text.all Char.isDigit then
    some (text.foldl (fun n c => n * 10 + (c.toNat - 48)) 0)
  else none

/-- A presigned URL: its text, and the parameters of its query; none when the text does
not parse as a URL. -/
structure PresignedUrl where
  href : Text
  searchParams : Option (List (Text × Text))
  deriving DecidableEq, Repr

/-- The date and time of `X-Amz-Date`, `YYYYMMDDTHHMMSSZ`. -/
def amzDate? (text : Text) : Option Int := do
  guard (text.length = 16 ∧ text[8]? = some 'T' ∧ text[15]? = some 'Z')
  let field (start length : Nat) : Option Nat := digits? ((text.drop start).take length)
  let year ← field 0 4
  let month ← field 4 2
  let day ← field 6 2
  let hour ← field 9 2
  let minute ← field 11 2
  let second ← field 13 2
  pure (dateUTC year ((month : Int) - 1) day hour minute second)

/-- When a SigV4 presigned URL stops working, read off its query. -/
def presignedUrlDeadline (url : PresignedUrl) : Option DateValue := do
  let params ← url.searchParams
  let get (name : String) : Option Text :=
    (params.find? (fun p => p.1 = name.toList)).map (·.2)
  let signed ← amzDate? ((get "X-Amz-Date").getD [])
  let lifetime ← (get "X-Amz-Expires").bind digits?
  pure (dateOfMs (signed + lifetime * 1000))

/-- The URL may be released: its deadline can be read and is not after the share's expiry.
The comparison with an invalid date is false in JavaScript. -/
def UrlWithinShare (share : ShareRow) (url : PresignedUrl) : Prop :=
  ∃ deadline ∈ presignedUrlDeadline url, ∀ ms ∈ deadline, ms ≤ share.expiresAt * 1000

instance (share : ShareRow) (url : PresignedUrl) : Decidable (UrlWithinShare share url) :=
  inferInstanceAs (Decidable (∃ _ ∈ _, _))

/-- Storage key of a share's file, or `none` when the stored path is not one the share
operation would have accepted. -/
def shareStorageKey (share : ShareRow) : Option Text :=
  if KeyInsideDrive share.path then
    some (getS3Key share.orgId share.driveId share.path)
  else none

/-! ### Creating and revoking -/

/-- The parameters of `share-create`.  `expiresIn` is omitted, `null` or a number of
seconds. -/
structure ShareCreateParams where
  path : Text
  expiresIn : Option (Option Nat)
  maxViews : Option Nat
  deriving DecidableEq, Repr

structure ShareCreateResult where
  id : Text
  kind : ShareKind
  sharePath : Text
  path : Text
  expiresIn : Option Nat
  expiresAt : Option Nat
  maxViews : Option Nat
  deriving DecidableEq, Repr

/-- Exactly one of the three must be given. -/
structure ShareRevokeParams where
  id : Option Text
  token : Option Text
  path : Option Text
  deriving DecidableEq, Repr

/-- Insert a share; a taken id or token hash throws. -/
def insertShare (tables : ShareTables) (row : ShareRow) : Except SqlError ShareTables :=
  if ∃ share ∈ tables.shares, share.id = row.id ∨ share.tokenHash = row.tokenHash then
    .error (.unique .shares)
  else
    .ok { tables with shares := tables.shares ++ [row] }

/-- Mark a share revoked. -/
def ShareRow.revoke (userId : Text) (now : Nat) (share : ShareRow) : ShareRow :=
  { share with revokedAt := some (seconds now), revokedBy := some userId }

/-- The UPDATE of one share by its id, guarded by `revoked_at IS NULL`; returns whether a
row was updated. -/
def revokeById (userId id : Text) (now : Nat) (tables : ShareTables) : Bool × ShareTables :=
  (tables.shares.any (fun share => share.id = id ∧ share.revokedAt = none),
    { tables with shares := tables.shares.map (fun share =>
        if share.id = id ∧ share.revokedAt = none then share.revoke userId now else share) })

/-- Revoke the given shares one after the other; returns the ids that were updated. -/
def revokeAll (userId : Text) (now : Nat) :
    ShareTables → List ShareRow → List Text × ShareTables
  | tables, [] => ([], tables)
  | tables, row :: rows =>
      if row.revokedAt ≠ none then revokeAll userId now tables rows
      else
        let (updated, tables) := revokeById userId row.id now tables
        let (ids, tables) := revokeAll userId now tables rows
        (if updated then row.id :: ids else ids, tables)

/-- The shares that the parameters of `share-revoke` name in the caller's drive. -/
def revokeCandidates (sha256 : Bytes → Text) (ctx : OpContext) (params : ShareRevokeParams)
    (tables : ShareTables) : Except OpError (List ShareRow) :=
  match params with
  | ⟨some id, none, none⟩ =>
      .ok (tables.shares.filter (fun share => share.id = id ∧ share.driveId = ctx.driveId))
  | ⟨none, some link, none⟩ =>
      match extractShareToken link with
      | none => .error (.validation
          { message := "Not a valid share token or share URL", field := some "token" })
      | some token => .ok (tables.shares.filter (fun share =>
          share.tokenHash = hashShareToken sha256 token ∧ share.driveId = ctx.driveId))
  | ⟨none, none, some path⟩ =>
      .ok (tables.shares.filter (fun share =>
        share.path = normalizePath path ∧ share.driveId = ctx.driveId))
  | _ => .error (.validation
      { message := "Provide exactly one of: id, token (or the share URL), path"
        suggestion := some ("Use the id or url returned by share-create, or a file or " ++
          "folder path to revoke all of its links") })

/-- `share-revoke`.  `isAdmin` says whether the caller is an admin of the drive or org. -/
def shareRevoke (sha256 : Bytes → Text) (ctx : OpContext) (isAdmin : Bool)
    (params : ShareRevokeParams) (now : Nat) (tables : ShareTables) :
    Except OpError (List Text) × ShareTables :=
  match revokeCandidates sha256 ctx params tables with
  | .error e => (.error e, tables)
  | .ok [] => (.error (.notFound { message := "Share link not found" }), tables)
  | .ok rows =>
      let allowed := rows.filter (fun row => isAdmin = true ∨ row.createdBy = ctx.userId)
      if allowed = [] then
        (.error (.permissionDenied
          { message := "Only the person who created a share link, or a drive admin, can " ++
              "revoke it"
            suggestion := some "Ask the link's creator or a drive admin to revoke it" }),
          tables)
      else
        let (ids, tables) := revokeAll ctx.userId now tables allowed
        (.ok ids, tables)

end AgentFs

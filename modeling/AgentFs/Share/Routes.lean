import AgentFs.Share.Preview
import AgentFs.Lib.Async

/-!
# The share routes

The public routes of `routes/share.ts` and the operations that create and revoke links, as
cooperative programs over the share tables.  A segment reads the clock once, and either uses
the tables or takes the answer of a storage call; whatever storage answers is an input.
The routes end early by `throw`ing their response.
-/

namespace AgentFs

open Async

/-! ### Requests, answers and events -/

/-- How a storage call fails. -/
inductive StorageFault where
  | notFound
  | other
  deriving DecidableEq, Repr

/-- What one segment takes from outside: the clock in milliseconds, the answers of the
storage, the random token and id it draws, and the role of the caller. -/
structure ShareInput where
  now : Nat
  fault : Option StorageFault
  size : Nat
  bytes : Bytes
  url : PresignedUrl
  pathKind : Option ShareKind
  token : Text
  uuid : Text
  isAdmin : Bool

/-- The answer to a request. -/
inductive ShareResponse where
  /-- The page of a link that cannot be opened. -/
  | expiredPage (status : Nat)
  | unavailablePage
  /-- The answer to a `HEAD` request. -/
  | emptyPage
  | previewBotPage
  | page (filename : Text) (size : Nat) (mime : Text) (expiresAt viewsLeft : Option Nat)
      (grant : Option Text) (body : ShareBody)
  | plain (status : Nat) (message : String)
  | redirect (location : Text)
  | bytes (contentType disposition : Text) (bytes : Bytes)
  | created (result : ShareCreateResult)
  | revoked (ids : List Text)
  | refused (error : OpError)
  deriving DecidableEq, Repr

/-- What a segment did. -/
inductive ShareAction where
  | quiet
  | created (row : ShareRow)
  /-- A view was counted. -/
  | opened (view : OpenedShareView)
  | revoked (ids : List Text)
  /-- An answer for a share that shows nothing of its file. -/
  | notice (share : ShareRow)
  /-- The page of a share was released. -/
  | page (share : ShareRow)
  /-- The bytes of a share, or a URL for them, were released against a grant. -/
  | bytes (share : ShareRow) (grant : Option Text)
  deriving DecidableEq, Repr

/-- What a segment did, and when. -/
structure ShareEvent where
  time : Nat
  action : ShareAction
  deriving DecidableEq, Repr

/-- The tables, and the time of the last segment. -/
structure ShareWorld where
  clock : Nat
  tables : ShareTables
  deriving DecidableEq, Repr

/-- A route: its error is a response that ends it early. -/
abbrev Route (α : Type) := Fallible ShareWorld ShareInput ShareEvent ShareResponse α

/-- The route of one segment. -/
def shareSegment {α : Type}
    (f : ShareInput → ShareTables → Except ShareResponse α × ShareAction × ShareTables) :
    Route α :=
  Fallible.atomic fun w x =>
    let r := f x w.tables
    (r.1, ⟨x.now, r.2.1⟩, ⟨x.now, r.2.2⟩)

/-- A segment that changes nothing. -/
def look {α : Type} (f : ShareInput → ShareTables → Except ShareResponse α) : Route α :=
  shareSegment fun x tables => (f x tables, .quiet, tables)

/-- Internal errors are never echoed on a public route. -/
def internalError : ShareResponse := .plain 500 "Something went wrong"

/-- The answer of a storage call; `missing` answers for an object that is not there. -/
def storageCall {α : Type} (answer : ShareInput → α) (missing : ShareResponse) : Route α :=
  look fun x _ =>
    match x.fault with
    | none => .ok (answer x)
    | some .notFound => .error missing
    | some .other => .error internalError

/-! ### The page -/

structure PageRequest where
  token : Text
  isHead : Bool
  userAgent : Option Text
  deriving DecidableEq, Repr

/-- Longest an embed presigned URL lives. -/
def embedUrlTtlSeconds : Nat := 3600

/-- Longest a presigned URL of the byte routes lives. -/
def downloadUrlTtlSeconds : Nat := 300

/-- Presign a share's file so that the URL cannot outlive the share. -/
def presignShareUrl (share : ShareRow) (capSeconds : Nat) (missing : ShareResponse) :
    Route (Option PresignedUrl) := do
  let ttl ← look fun x _ => .ok (capUrlTtlSeconds share capSeconds x.now)
  match ttl with
  | none => pure none
  | some _ => do
      let url ← storageCall (·.url) missing
      pure (if UrlWithinShare share url then some url else none)

/-- The body of the page, `none` when there is no time left to issue a URL for. -/
def buildBody (presignedUrls : Bool) (share : ShareRow) (type : ShareFileType) (size : Nat)
    (token : Text) (grant : Option Text) : Route (Option ShareBody) :=
  let rawSrc := "/share/".toList ++ token ++ "/raw".toList ++ grantQuery grant
  if type.downloadOnly then
    pure (some (.none "This file type is not previewed for safety. Use Download to get it."))
  else if type.kind = .html then
    if size > shareHtmlMaxBytes then
      pure (some (.none "This page is too large to render here. Use Download to get it."))
    else pure (some (.embed .html rawSrc))
  else if type.Embeddable then
    if presignedUrls then do
      let url ← presignShareUrl share embedUrlTtlSeconds .unavailablePage
      pure (url.map (fun url => .embed (embedTag type) url.href))
    else pure (some (.embed (embedTag type) rawSrc))
  else if type.kind = .markdown ∨ type.kind = .text ∨ type.kind = .sniff then
    if size > maxPreviewBytes then
      pure (some (.none "This file is too large to preview. Use Download to get it."))
    else do
      let bytes ← storageCall (·.bytes) .unavailablePage
      pure (some (textBody type bytes))
  else
    pure (some (.none "This file type can't be previewed here. Use Download to get it."))

section

variable (sha256 : Bytes → Text)

/-- The first look of the page route at its share. -/
def findActiveShare (req : PageRequest) : Route ShareRow :=
  shareSegment fun x tables =>
    match findShareByToken sha256 tables req.token with
    | none => (.error (.expiredPage 404), .quiet, tables)
    | some share =>
        if getShareState share x.now ≠ .active then
          (.error (.expiredPage 410), .quiet, tables)
        else if share.kind = .site then
          (.error (.redirect ("/site/".toList ++ req.token ++ ['/'])), .notice share, tables)
        else if req.isHead then (.error .emptyPage, .notice share, tables)
        else if IsLinkPreviewBot req.userAgent then
          (.error .previewBotPage, .notice share, tables)
        else (.ok share, .quiet, tables)

/-- Spend the view. -/
def openView (token : Text) : Route OpenedShareView :=
  shareSegment fun x tables =>
    match openShareView sha256 tables token x.token x.now with
    | .error _ => (.error internalError, .quiet, tables)
    | .ok (none, tables) => (.error (.expiredPage 410), .quiet, tables)
    | .ok (some view, tables) => (.ok view, .opened view, tables)

/-- Last look before the page is released. -/
def releasePage (token : Text) (answer : ShareResponse) : Route ShareResponse :=
  shareSegment fun x tables =>
    match findShareByToken sha256 tables token with
    | none => (.error (.expiredPage 404), .quiet, tables)
    | some live =>
        if live.revokedAt ≠ none ∨ live.expiresAt * 1000 ≤ x.now then
          (.error (.expiredPage 410), .quiet, tables)
        else (.ok answer, .page live, tables)

/-- `GET /share/:token`. -/
def sharePage (presignedUrls : Bool) (req : PageRequest) : Route ShareResponse := do
  let share ← findActiveShare sha256 req
  match shareStorageKey share with
  | none => throw .unavailablePage
  | some _ => do
      let type := classifyShareFile share.path
      let size ← storageCall (·.size) .unavailablePage
      let opened ← openView sha256 req.token
      let spent := opened.share
      let grant := opened.grant.map (·.1)
      let body ← buildBody presignedUrls spent type size req.token grant
      match body with
      | none => throw (.expiredPage 410)
      | some body =>
          releasePage sha256 req.token
            (.page (filenameOf share) size type.mime
              (if spent.neverExpires then none else some spent.expiresAt)
              (spent.maxViews.map (· - spent.views)) grant body)

/-! ### The byte routes -/

/-- Why the byte routes said no. -/
def deniedBytes : ByteRefusal → ShareResponse
  | .notFound => .plain 404 "This link has expired"
  | .grantRequired => .plain 403 "Open the share link to view or download this file"
  | .gone => .plain 410 "This link has expired"

def authorizeBytes (token : Text) (grant : Option Text) : Route ShareRow :=
  look fun x tables =>
    (authorizeShareBytes sha256 tables token grant x.now).mapError deniedBytes

def fileGone : ShareResponse := .plain 404 "This file is no longer available"

def htmlTooLarge : ShareResponse :=
  .plain 413 "This page is larger than 25 MB and cannot be rendered from a share link"

/-- Authorize again and release the bytes in the same segment. -/
def releaseBytes (token : Text) (grant : Option Text) (answer : ShareResponse) :
    Route ShareResponse :=
  shareSegment fun x tables =>
    match authorizeShareBytes sha256 tables token grant x.now with
    | .error _ => (.error (.plain 410 "This link has expired"), .quiet, tables)
    | .ok share => (.ok answer, .bytes share grant, tables)

/-- Stream the object through the server. -/
def streamObject (token : Text) (grant : Option Text) (contentType disposition : Text)
    (maxBytes : Option Nat) : Route ShareResponse := do
  let bytes ← storageCall (·.bytes) fileGone
  if ∃ limit ∈ maxBytes, limit < bytes.length then
    throw htmlTooLarge
  else
    releaseBytes sha256 token grant (.bytes contentType disposition bytes)

/-- Authorize again and release a URL in the same segment. -/
def releaseUrl (token : Text) (grant : Option Text) (url : Option PresignedUrl) :
    Route ShareResponse :=
  shareSegment fun x tables =>
    match authorizeShareBytes sha256 tables token grant x.now, url with
    | .error refusal, _ => (.error (deniedBytes refusal), .quiet, tables)
    | .ok _, none => (.error (.plain 410 "This link has expired"), .quiet, tables)
    | .ok share, some url => (.ok (.redirect url.href), .bytes share grant, tables)

/-- `GET /share/:token/raw`. -/
def shareRaw (presignedUrls : Bool) (token : Text) (grant : Option Text) :
    Route ShareResponse := do
  let share ← authorizeBytes sha256 token grant
  let type := classifyShareFile share.path
  if share.kind = .site then throw (.plain 404 "Not found")
  else if ¬ type.Embeddable ∧ type.kind ≠ .html then throw (.plain 404 "Not found")
  else
    match shareStorageKey share with
    | none => throw fileGone
    | some _ =>
        let disposition := contentDisposition "inline" (filenameOf share)
        if type.kind = .html then do
          let size ← storageCall (·.size) fileGone
          if size > shareHtmlMaxBytes then throw htmlTooLarge
          else
            streamObject sha256 token grant (withUtf8Charset "text/html".toList) disposition
              (some shareHtmlMaxBytes)
        else if presignedUrls then do
          let url ← presignShareUrl share downloadUrlTtlSeconds internalError
          releaseUrl sha256 token grant url
        else streamObject sha256 token grant (shareContentType type) disposition none

/-- `GET /share/:token/download`. -/
def shareDownload (presignedUrls : Bool) (token : Text) (grant : Option Text) :
    Route ShareResponse := do
  let share ← authorizeBytes sha256 token grant
  if share.kind = .site then throw (.plain 404 "Not found")
  else
    match shareStorageKey share with
    | none => throw fileGone
    | some _ =>
        if presignedUrls then do
          let _ ← storageCall (·.size) fileGone
          let again ← authorizeBytes sha256 token grant
          let url ← presignShareUrl again downloadUrlTtlSeconds fileGone
          releaseUrl sha256 token grant url
        else
          streamObject sha256 token grant (shareContentType (classifyShareFile share.path))
            (contentDisposition "attachment" (filenameOf share)) none

/-! ### Creating and revoking -/

/-- The refusal of a path that could leave the drive. -/
def insideDriveError (path : Text) : OpError :=
  if '\x00' ∈ path then
    .validation { message := "Path must not contain NUL bytes", field := some "path" }
  else
    .validation
      { message := "Path must not contain '.' or '..' segments"
        field := some "path"
        suggestion :=
          some "Use the absolute path of the file inside the drive, e.g. /docs/report.pdf" }

/-- The row of a new share. -/
def newShare (ctx : OpContext) (path : Text) (kind : ShareKind) (params : ShareCreateParams)
    (x : ShareInput) : ShareRow where
  id := x.uuid
  orgId := ctx.orgId
  driveId := ctx.driveId
  path := path
  kind := kind
  tokenHash := hashShareToken sha256 x.token
  expiresAt :=
    match params.expiresIn with
    | none => seconds x.now + shareDefaultTtlSeconds
    | some none => shareNeverExpiresAt
    | some (some expiresIn) => seconds x.now + expiresIn
  neverExpires := params.expiresIn = some none
  maxViews := params.maxViews
  views := 0
  lastViewedAt := none
  createdBy := ctx.userId
  createdAt := seconds x.now
  revokedAt := none
  revokedBy := none

/-- What `share-create` returns of the new share. -/
def createResult (row : ShareRow) (params : ShareCreateParams) (token : Text) :
    ShareCreateResult where
  id := row.id
  kind := row.kind
  sharePath :=
    match row.kind with
    | .site => "/site/".toList ++ token ++ ['/']
    | .file => "/share/".toList ++ token
  path := row.path
  expiresIn := if row.neverExpires then none
    else some ((params.expiresIn.getD none).getD shareDefaultTtlSeconds)
  expiresAt := if row.neverExpires then none else some row.expiresAt
  maxViews := row.maxViews

/-- `share-create`; the kind of the path is what the storage says. -/
def shareCreate (ctx : OpContext) (params : ShareCreateParams) : Route ShareResponse := do
  let path := normalizePath params.path
  if KeyInsideDrive path then do
    let kind ← storageCall (·.pathKind) (.refused .storage)
    match kind with
    | none => throw (.refused (.notFound
        { message := "File or folder not found: " ++ String.ofList path, path := some path }))
    | some kind =>
        if kind = .site ∧ params.maxViews ≠ none then
          throw (.refused (.validation
            { message := "maxViews is not supported when sharing a folder"
              field := some "maxViews"
              suggestion := some ("Leave out maxViews; use expiresIn and share-revoke to " ++
                "limit a site link") }))
        else
          shareSegment fun x tables =>
            let row := newShare sha256 ctx path kind params x
            match insertShare tables row with
            | .error e => (.error (.refused (.sql e)), .quiet, tables)
            | .ok tables => (.ok (.created (createResult row params x.token)), .created row, tables)
  else throw (.refused (insideDriveError path))

/-- The request to `share-revoke`. -/
def revokeShare (ctx : OpContext) (params : ShareRevokeParams) : Route ShareResponse :=
  shareSegment fun x tables =>
    match shareRevoke sha256 ctx x.isAdmin params x.now tables with
    | (.error e, tables) => (.error (.refused e), .quiet, tables)
    | (.ok ids, tables) => (.ok (.revoked ids), .revoked ids, tables)

/-! ### The server -/

/-- A request about share links. -/
inductive ShareRequest where
  | create (ctx : OpContext) (params : ShareCreateParams)
  | revoke (ctx : OpContext) (params : ShareRevokeParams)
  | page (req : PageRequest)
  | raw (token : Text) (grant : Option Text)
  | download (token : Text) (grant : Option Text)
  deriving DecidableEq, Repr

/-- The program of a request; `presignedUrls` says whether the storage can presign. -/
def ShareRequest.program (presignedUrls : Bool) : ShareRequest → Route ShareResponse
  | .create ctx params => shareCreate sha256 ctx params
  | .revoke ctx params => revokeShare sha256 ctx params
  | .page req => sharePage sha256 presignedUrls req
  | .raw token grant => shareRaw sha256 presignedUrls token grant
  | .download token grant => shareDownload sha256 presignedUrls token grant

/-- The requests running over empty tables. -/
def shareServer (presignedUrls : Bool) (requests : List ShareRequest) :
    Pool ShareWorld ShareInput ShareEvent (Except ShareResponse ShareResponse) where
  conf := ⟨⟨0, .empty⟩, []⟩
  procs := requests.map (fun request => (request.program sha256 presignedUrls).run)

end

end AgentFs

import AgentFs.Ops.Versioning

/-!
# The file operations

`write`, `edit`, `append`, `revert`, `cp`, `mv` and `rm`, and the two routes that read a
file together with its version: the `open_read` IPC request and the raw file `GET`.

A mutating operation changes the object first and records the version afterwards.  What
it does after that (search index, stars) is one segment that touches no table of this
development, but can still make the request fail.
-/

namespace AgentFs

open Async

/-! ### Parameters and results -/

structure WriteParams where
  path : Text
  content : Text
  message : Option Text := none
  expectedVersion : Option Int := none
  deriving DecidableEq, Repr

structure WriteRawParams where
  path : Text
  bytes : Bytes
  message : Option Text := none
  expectedVersion : Option Int := none
  deriving DecidableEq, Repr

structure EditParams where
  path : Text
  oldString : Text
  newString : Text
  message : Option Text := none
  expectedVersion : Option Int := none
  deriving DecidableEq, Repr

structure AppendParams where
  path : Text
  content : Text
  message : Option Text := none
  expectedVersion : Option Int := none
  deriving DecidableEq, Repr

structure RevertParams where
  path : Text
  version : Int
  expectedVersion : Option Int := none
  deriving DecidableEq, Repr

/-- The parameters of `cp`; the expected version is that of the destination. -/
structure CpParams where
  fromPath : Text
  toPath : Text
  expectedVersion : Option Int := none
  deriving DecidableEq, Repr

/-- The parameters of `mv`; the expected version is that of the source. -/
structure MvParams where
  fromPath : Text
  toPath : Text
  message : Option Text := none
  expectedVersion : Option Int := none
  deriving DecidableEq, Repr

structure RmParams where
  path : Text
  expectedVersion : Option Int := none
  deriving DecidableEq, Repr

/-- The size limit of a write, and how its message renders it in MB. -/
structure WriteOpts where
  maxSize : Nat
  limitMb : String
  deriving DecidableEq, Repr

/-- What a request answers. -/
inductive Response where
  | written (version : Nat) (path : Text) (size : Nat) (contentHash : Text) (deduped : Bool)
  | edited (version : Nat) (path : Text) (changes : Nat)
  | appended (version size : Nat)
  | reverted (version : Nat) (revertedTo : Int)
  | copied (fromPath toPath : Text) (version : Nat)
  | moved (fromPath toPath : Text) (version : Nat)
  | removed (path : Text)
  | openRead (bytes : Bytes) (version : Nat) (contentHash : Text) (size mtime : Nat)
  /-- A raw file with the version and content-hash headers. -/
  | rawFile (bytes : Bytes) (version : Option Nat) (contentHash : Option Text)
  deriving DecidableEq, Repr

/-! ### The operations -/

/-- The storage key of a path of the caller's drive. -/
def OpContext.key (ctx : OpContext) (path : Text) : Text :=
  getS3Key ctx.orgId ctx.driveId path

/-- A size in MB with one decimal, rounded to nearest. -/
def renderMb (size : Nat) : String :=
  let tenths := (size * 10 + 524288) / 1048576
  toString (tenths / 10) ++ "." ++ toString (tenths % 10)

/-- The rest of an operation after its version is recorded: the search index and the
stars, outside the tables of this development. -/
def afterCommit : Op Unit :=
  segment fun w x =>
    if x.fail then (.error (.sql .other), .silent, w) else (.ok (), .silent, w)

/-- A storage error of the not-found shape becomes `NotFoundError`. -/
def orNotFound (path : Text) : OpError → OpError
  | .noSuchKey _ => .notFound
      { message := "File not found: " ++ String.ofList path, path := some path }
  | e => e

/-- The version that an identical write short-circuits to: the expected version matches
and the head has the hash of the new content. -/
def dedupVersion (ctx : OpContext) (path contentHash : Text) : Option Int → Op (Option Nat)
  | none => pure none
  | some expectedVersion => do
      let current ← assertExpectedVersion ctx path expectedVersion
      if current > 0 then do
        let headHash ← getHeadContentHash ctx path
        pure (if headHash = some contentHash then some current else none)
      else
        pure none

section

variable (sha256 : Bytes → Text)

/-- Store new contents of a path and record them as a version; returns the version. -/
def storeVersion (ctx : OpContext) (path : Text) (operation : Operation) (bytes : Bytes)
    (message diffSummary : Option Text) : Op Nat := do
  let contentType := detectMimeType path
  let s3Result ← putObject sha256 ctx.backend (ctx.key path) bytes (some contentType)
  createVersion ctx
    { path := path
      s3VersionId := s3Result.versionId.getD []
      operation := operation
      message := message
      diffSummary := diffSummary
      size := some bytes.length
      etag := s3Result.etag
      contentType := some contentType
      contentHash := some (sha256 bytes) }

/-- The write path of `write` and `writeRaw`. -/
def writeInternal (ctx : OpContext) (params : WriteRawParams) (opts : WriteOpts) :
    Op Response :=
  let path := normalizePath params.path
  let size := params.bytes.length
  if size > opts.maxSize then
    throw (.validation
      { message := "File size " ++ renderMb size ++ "MB exceeds the " ++ opts.limitMb ++
          "MB limit"
        field := some "content"
        suggestion := some "Split large files into smaller chunks" })
  else do
    let contentHash := sha256 params.bytes
    let deduped ← dedupVersion ctx path contentHash params.expectedVersion
    match deduped with
    | some current => pure (.written current path size contentHash true)
    | none => do
        let version ← storeVersion sha256 ctx path .write params.bytes params.message none
        afterCommit
        pure (.written version path size contentHash false)

/-- The limit of `write`: 10 MB. -/
def maxFileSize : WriteOpts := ⟨10 * 1024 * 1024, "10"⟩

def write (ctx : OpContext) (params : WriteParams) : Op Response :=
  writeInternal sha256 ctx
    { path := params.path
      bytes := textEncode params.content
      message := params.message
      expectedVersion := params.expectedVersion }
    maxFileSize

/-- `writeRaw`, past its role check; `limit` is the configured upload limit. -/
def writeRaw (limit : WriteOpts) (ctx : OpContext) (params : WriteRawParams) : Op Response :=
  writeInternal sha256 ctx params limit

def edit (ctx : OpContext) (params : EditParams) : Op Response := do
  let path := normalizePath params.path
  checkExpectedVersion ctx path params.expectedVersion
  let object ← (getObject ctx.backend (ctx.key path)).mapError (orNotFound path)
  let content := textDecode object.bytes
  let count := occurrences content params.oldString
  if count = 0 then
    throw (.editConflict
      { message := "old_string not found in " ++ String.ofList path
        path := some path
        suggestion := some "Verify the exact text you want to replace" })
  else if count > 1 then
    throw (.editConflict
      { message := "old_string found " ++ toString count ++ " times in " ++
          String.ofList path ++ ", expected exactly 1"
        path := some path
        suggestion := some "Provide more surrounding context to make the match unique" })
  else do
    let newContent := replaceFirst content params.oldString params.newString
    let version ← storeVersion sha256 ctx path .edit (textEncode newContent) params.message
      (some (editDiffSummary params.oldString params.newString))
    afterCommit
    pure (.edited version path 1)

def append (ctx : OpContext) (params : AppendParams) : Op Response := do
  let path := normalizePath params.path
  checkExpectedVersion ctx path params.expectedVersion
  let object ← (getObject ctx.backend (ctx.key path)).mapError (orNotFound path)
  let newContent := textDecode object.bytes ++ params.content
  let version ← storeVersion sha256 ctx path .append (textEncode newContent) params.message none
  afterCommit
  pure (.appended version (textEncode newContent).length)

/-- Find a version row by its number. -/
def findVersion (ctx : OpContext) (path : Text) (version : Int) : Op FileVersionRow :=
  segment fun w _ =>
    match (w.db.versionsOf ctx.driveId path).find? (fun r => (r.version : Int) = version) with
    | some row => (.ok row, .readRow ctx.driveId path version (some row), w)
    | none =>
        (.error (.notFound
          { message := "Version " ++ toString version ++ " not found for " ++
              String.ofList path
            path := some path }),
          .readRow ctx.driveId path version none, w)

/-- Whether the backend keeps old versions. -/
def Backend.versioning : Backend → Bool
  | .local => true
  | .s3 versioningEnabled => versioningEnabled

def revert (ctx : OpContext) (params : RevertParams) : Op Response :=
  let path := normalizePath params.path
  if ctx.backend.versioning = false then throw (.unsupportedOperation "revert")
  else do
    checkExpectedVersion ctx path params.expectedVersion
    let targetVersion ← findVersion ctx path params.version
    if targetVersion.s3VersionId = [] then
      throw (.versioningRequired
        { message := "S3 versioning required for revert"
          suggestion := some "Enable S3 versioning on the bucket" })
    else do
      let oldContent ← getObjectVersion ctx.backend (ctx.key path) targetVersion.s3VersionId
      let version ← storeVersion sha256 ctx path .revert oldContent.bytes
        (some ("Reverted to version ".toList ++ (toString params.version).toList)) none
      afterCommit
      pure (.reverted version params.version)

/-- The common part of `cp` and `mv`: copy the object, read the copy back and record it
as a version of the destination. -/
def copyVersion (ctx : OpContext) (source target : Text) (message : Text) : Op Nat := do
  let copyResult ← copyObject sha256 ctx.backend (ctx.key source) (ctx.key target)
  let head ← headObject ctx.backend (ctx.key target)
  let obj ← getObject ctx.backend (ctx.key target)
  createVersion ctx
    { path := target
      s3VersionId := copyResult.versionId.getD []
      operation := .write
      message := some message
      size := some head.bytes.length
      etag := copyResult.etag
      contentType := some ((head.contentType.or obj.contentType).getD (detectMimeType target))
      contentHash := some (sha256 obj.bytes) }

/-- The refusal of a copy or move onto itself. -/
def samePathError : OpError :=
  .validation { message := "Source and destination are the same path" }

def cp (ctx : OpContext) (params : CpParams) : Op Response :=
  let source := normalizePath params.fromPath
  let target := normalizePath params.toPath
  if source = target then throw samePathError
  else do
    checkExpectedVersion ctx target params.expectedVersion
    let version ← copyVersion sha256 ctx source target ("Copied from ".toList ++ source)
    afterCommit
    pure (.copied source target version)

/-- The delete part of `mv` and `rm`: remove the object and record the delete. -/
def deleteVersion (ctx : OpContext) (path : Text) (message : Option Text) : Op Unit := do
  deleteObject ctx.backend (ctx.key path)
  let _ ← createVersion ctx
    { path := path, s3VersionId := [], operation := .delete, message := message }
  pure ()

def mv (ctx : OpContext) (params : MvParams) : Op Response :=
  let source := normalizePath params.fromPath
  let target := normalizePath params.toPath
  if source = target then throw samePathError
  else do
    checkExpectedVersion ctx source params.expectedVersion
    let version ← copyVersion sha256 ctx source target
      (params.message.getD ("Moved from ".toList ++ source))
    deleteVersion ctx source (some ("Moved to ".toList ++ target))
    afterCommit
    pure (.moved source target version)

end

/-- Soft-delete the comments on a path, replies included. -/
def softDeleteComments (ctx : OpContext) (path : Text) : Op Unit :=
  segment fun w x =>
    if x.fail then (.error (.sql .other), .silent, w)
    else
      (.ok (), .silent, { w with db := { w.db with comments := w.db.comments.map (fun c =>
        if c.path = path ∧ c.driveId = ctx.driveId then
          { c with isDeleted := true, updatedAt := seconds x.now }
        else c) } })

def rm (ctx : OpContext) (params : RmParams) : Op Response := do
  let path := normalizePath params.path
  checkExpectedVersion ctx path params.expectedVersion
  deleteVersion ctx path none
  softDeleteComments ctx path
  afterCommit
  pure (.removed path)

/-! ### Reading a file with its version -/

/-- Read the head row of a path. -/
def readHeadRow (ctx : OpContext) (path : Text) : Op (Option FileVersionRow) :=
  segment fun w _ =>
    let head := getHeadVersionRow w.db ctx.driveId path
    (.ok head, .readHead ctx.driveId path head, w)

/-- The `open_read` IPC request.  The path is used as it came, for the key and for the
head lookup. -/
def openRead (ctx : OpContext) (path : Text) : Op Response := do
  let object ← getObject ctx.backend (ctx.key path)
  let head ← readHeadRow ctx path
  pure (.openRead object.bytes ((head.map (·.version)).getD 0)
    ((head.bind (·.contentHash)).getD []) object.bytes.length ((head.map (·.createdAt)).getD 0))

/-- The raw file `GET`; `urlPath` is the decoded path of the URL. -/
def getRaw (ctx : OpContext) (urlPath : Text) : Op Response := do
  let filePath := normalizePath urlPath
  let object ← (getObject ctx.backend (ctx.key filePath)).mapError (orNotFound filePath)
  let head ← readHeadRow ctx filePath
  pure (.rawFile object.bytes (head.map (·.version))
    ((head.bind (·.contentHash)).filter (· ≠ [])))

/-! ### Requests -/

/-- A request to the file system. -/
inductive Request where
  | write (params : WriteParams)
  | writeRaw (limit : WriteOpts) (params : WriteRawParams)
  | edit (params : EditParams)
  | append (params : AppendParams)
  | revert (params : RevertParams)
  | cp (params : CpParams)
  | mv (params : MvParams)
  | rm (params : RmParams)
  | openRead (path : Text)
  | getRaw (urlPath : Text)
  deriving DecidableEq, Repr

/-- The program of a request. -/
def Request.program (sha256 : Bytes → Text) (ctx : OpContext) : Request → Op Response
  | .write params => AgentFs.write sha256 ctx params
  | .writeRaw limit params => AgentFs.writeRaw sha256 limit ctx params
  | .edit params => AgentFs.edit sha256 ctx params
  | .append params => AgentFs.append sha256 ctx params
  | .revert params => AgentFs.revert sha256 ctx params
  | .cp params => AgentFs.cp sha256 ctx params
  | .mv params => AgentFs.mv sha256 ctx params
  | .rm params => AgentFs.rm ctx params
  | .openRead path => AgentFs.openRead ctx path
  | .getRaw urlPath => AgentFs.getRaw ctx urlPath

/-- The requests running over one world. -/
abbrev Server := Pool World Input Event (Except OpError Response)

/-- A server that has just received the given requests. -/
def Server.start (sha256 : Bytes → Text) (w : World) (requests : List (OpContext × Request)) :
    Server where
  conf := ⟨w, []⟩
  procs := requests.map (fun r => (r.2.program sha256 r.1).run)

/-! ### A sample drive -/

/-- A user of a drive on the local backend. -/
def sampleContext : OpContext := ⟨"org".toList, "drive".toList, "user".toList, .local⟩

/-- The input of a segment in which nothing fails. -/
def sampleInput : Input where
  fail := false
  now := 0
  uuid n := (toString n).toList
  deliveryId n := (toString n).toList
  versionId := none
  etag := none
  payload := id

/-- SHA-256 of the one-letter contents `a` and `b` and of the empty contents. -/
def sampleHash : Bytes → Text
  | [97] => "ca978112ca1bbdcafac231b39a23dc4da786eff8147c4f72b9807785afee48bb".toList
  | [98] => "3e23e8160039594a33894f6564e1b1348bbd7a0088d42c4acb73eeaed59c009d".toList
  | _ => "e3b0c44298fc1c149afbf4c8996fb92427ae41e4649b934ca495991b7852b855".toList

/-- A write of the given bytes to `/f`. -/
def sampleWrite (bytes : Bytes) (expectedVersion : Option Int) : OpContext × Request :=
  (sampleContext, .writeRaw maxFileSize
    { path := "/f".toList, bytes := bytes, expectedVersion := expectedVersion })

end AgentFs

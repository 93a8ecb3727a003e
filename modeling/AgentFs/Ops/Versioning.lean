import Mathlib.Data.List.MinMax
import AgentFs.Ops.Content
import AgentFs.Webhooks.Outbox
import AgentFs.Storage.Adapter

/-!
# Versions

`versioning.ts`: the head of a path, the optimistic check of an expected version, and
`createVersion`, which picks the next version number and then records the version in one
transaction.  Between the two other requests may run.
-/

namespace AgentFs

open Async

/-- The version numbers recorded for a path. -/
def Db.versionNumbers (db : Db) (driveId path : Text) : List Nat :=
  (db.versionsOf driveId path).map (·.version)

/-- `(MAX(version) ?? 0) + 1`. -/
def getNextVersion (db : Db) (driveId path : Text) : Nat :=
  (db.versionNumbers driveId path).max?.getD 0 + 1

/-- The newest version row of a path: `ORDER BY version DESC LIMIT 1`. -/
def getHeadVersionRow (db : Db) (driveId path : Text) : Option FileVersionRow :=
  (db.versionsOf driveId path).argmax (·.version)

/-- The version number of the head, `0` when the path has no version. -/
def currentVersion (db : Db) (driveId path : Text) : Nat :=
  ((getHeadVersionRow db driveId path).map (·.version)).getD 0

/-- What `assertExpectedVersion` accepts: the head has the expected version, or `0` is
expected and the head is a delete. -/
def HeadMatches (db : Db) (driveId path : Text) (expectedVersion : Int) : Prop :=
  expectedVersion = currentVersion db driveId path ∨
    (expectedVersion = 0 ∧
      (getHeadVersionRow db driveId path).map (·.operation) = some .delete)

instance (db : Db) (driveId path : Text) (expectedVersion : Int) :
    Decidable (HeadMatches db driveId path expectedVersion) :=
  inferInstanceAs (Decidable (_ ∨ _))

/-- The optimistic check, which returns the current version. -/
def assertExpectedVersion (ctx : OpContext) (path : Text) (expectedVersion : Int) : Op Nat :=
  segment fun w _ =>
    if HeadMatches w.db ctx.driveId path expectedVersion then
      (.ok (currentVersion w.db ctx.driveId path),
        .checkVersion ctx.driveId path expectedVersion true, w)
    else
      (.error (.editConflict
        { message := "Expected version " ++ toString expectedVersion ++
            " but file is at version " ++ toString (currentVersion w.db ctx.driveId path)
          path := some path
          suggestion := some "Re-read the file to get the current version and retry" }),
        .checkVersion ctx.driveId path expectedVersion false, w)

/-- The check of an optional expected version: nothing is checked when there is none. -/
def checkExpectedVersion (ctx : OpContext) (path : Text) : Option Int → Op Unit
  | none => pure ()
  | some expectedVersion => do
      let _ ← assertExpectedVersion ctx path expectedVersion
      pure ()

/-- The content hash of the head. -/
def getHeadContentHash (ctx : OpContext) (path : Text) : Op (Option Text) :=
  segment fun w _ =>
    let head := getHeadVersionRow w.db ctx.driveId path
    (.ok (head.bind (·.contentHash)), .readHead ctx.driveId path head, w)

/-! ### Recording a version -/

/-- The parameters of `createVersion`. -/
structure VersionParams where
  path : Text
  s3VersionId : Text
  operation : Operation
  message : Option Text := none
  diffSummary : Option Text := none
  size : Option Nat := none
  etag : Option Text := none
  contentType : Option Text := none
  contentHash : Option Text := none
  deriving DecidableEq, Repr

/-- The row `createVersion` inserts. -/
def versionRow (ctx : OpContext) (params : VersionParams) (version now : Nat) (db : Db) :
    FileVersionRow where
  id := db.fileVersionSeq + 1
  path := params.path
  driveId := ctx.driveId
  version := version
  s3VersionId := params.s3VersionId
  author := ctx.userId
  operation := params.operation
  message := params.message
  diffSummary := params.diffSummary
  size := params.size
  etag := params.etag
  contentHash := params.contentHash
  createdAt := seconds now

/-- Two rows agree on the columns of the UNIQUE index `(path, drive_id, version)`. -/
def FileVersionRow.Clashes (row r : FileVersionRow) : Prop :=
  r.path = row.path ∧ r.driveId = row.driveId ∧ r.version = row.version

instance (row r : FileVersionRow) : Decidable (row.Clashes r) :=
  inferInstanceAs (Decidable (_ ∧ _))

/-- Insert a version row under `UNIQUE(path, drive_id, version)`. -/
def insertVersion (row : FileVersionRow) (db : Db) : Except SqlError Db :=
  if ∃ r ∈ db.fileVersions, row.Clashes r then .error (.unique .fileVersions)
  else .ok { db with fileVersions := db.fileVersions ++ [row], fileVersionSeq := row.id }

/-- Update the metadata of a file, or insert it. -/
def upsertFile (ctx : OpContext) (params : VersionParams) (version now : Nat) (db : Db) : Db :=
  match (db.filesOf ctx.driveId params.path).head? with
  | some existing =>
      { db with files := db.files.map (fun f =>
          if f.path = params.path ∧ f.driveId = ctx.driveId then
            { f with
              size := params.size.getD existing.size
              contentType := params.contentType.or existing.contentType
              author := ctx.userId
              currentVersionId := some (toString version).toList
              modifiedAt := seconds now
              isDeleted := params.operation = .delete }
          else f) }
  | none =>
      { db with files := db.files ++
          [ { path := params.path
              driveId := ctx.driveId
              size := params.size.getD 0
              contentType := params.contentType
              author := ctx.userId
              currentVersionId := some (toString version).toList
              createdAt := seconds now
              modifiedAt := seconds now
              isDeleted := params.operation = .delete } ] }

/-- The transaction of `createVersion`: the version row, the file's metadata and the
webhook deliveries. -/
def createVersionTx (ctx : OpContext) (params : VersionParams) (version : Nat) (x : Input)
    (db : Db) : Except SqlError Db :=
  if x.fail then .error .other
  else do
    let db₁ ← insertVersion (versionRow ctx params version x.now db) db
    enqueueFileWebhooks ctx params.path x (upsertFile ctx params version x.now db₁)

/-- The error a failed transaction of `createVersion` ends the request with: a clash on
`file_versions` is a conflict of concurrent writers. -/
def versionError (path : Text) (version : Nat) : SqlError → OpError
  | .unique .fileVersions => .editConflict
      { message := "Concurrent write detected for " ++ String.ofList path ++ ": version " ++
          toString version ++ " already exists"
        path := some path
        suggestion :=
          some "Re-read the file to get the current version and retry the write" }
  | e => .sql e

/-- The first segment of `createVersion`. -/
def allocateVersion (ctx : OpContext) (path : Text) : Op Nat :=
  segment fun w _ =>
    let version := getNextVersion w.db ctx.driveId path
    (.ok version, .allocate ctx.driveId path version, w)

/-- The second segment of `createVersion`. -/
def recordVersion (ctx : OpContext) (params : VersionParams) (version : Nat) : Op Unit :=
  segment fun w x =>
    match createVersionTx ctx params version x w.db with
    | .ok db => (.ok (), .commit (versionRow ctx params version x.now w.db), { w with db := db })
    | .error e =>
        (.error (versionError params.path version e),
          .abort ctx.driveId params.path version e, w)

/-- Record a new version of a path; returns its number. -/
def createVersion (ctx : OpContext) (params : VersionParams) : Op Nat := do
  let version ← allocateVersion ctx params.path
  recordVersion ctx params version
  pure version

end AgentFs

import AgentFs.Paths

/-!
# The database

The tables of `db/schema.ts` that the operations of this development read and write, as
lists of rows in insertion order.  A statement that would break a UNIQUE index or a
primary key fails with `SqlError.unique`; a transaction is a computation in
`Except SqlError`, so that one that throws leaves no state behind.
-/

namespace AgentFs

/-- Tables with a uniqueness constraint that an operation can run into. -/
inductive Table where
  | fileVersions
  | webhookDeliveries
  | webhookSubscriptions
  | comments
  | commentMentions
  | events
  | shares
  | shareViewGrants
  | files
  | filesFtsDocs
  | contentChunks
  | chunkVectors
  deriving DecidableEq, Repr

/-- What makes a SQLite statement throw. -/
inductive SqlError where
  /-- `UNIQUE constraint failed` on the given table. -/
  | unique (table : Table)
  /-- Any other error: a full disk, a locked or damaged database. -/
  | other
  deriving DecidableEq, Repr

/-- `file_versions.operation`. -/
inductive Operation where
  | write
  | edit
  | append
  | delete
  | revert
  deriving DecidableEq, Repr

/-- A row of `file_versions`.  `createdAt` is in seconds. -/
structure FileVersionRow where
  id : Nat
  path : Text
  driveId : Text
  version : Nat
  s3VersionId : Text
  author : Text
  operation : Operation
  message : Option Text
  diffSummary : Option Text
  size : Option Nat
  etag : Option Text
  contentHash : Option Text
  createdAt : Nat
  deriving DecidableEq, Repr

/-- A row of `files`, with primary key `(path, driveId)`.  The status columns of the search
index are not modelled. -/
structure FileRow where
  path : Text
  driveId : Text
  size : Nat
  contentType : Option Text
  author : Text
  currentVersionId : Option Text
  createdAt : Nat
  modifiedAt : Nat
  isDeleted : Bool
  deriving DecidableEq, Repr

/-! ### Webhooks -/

/-- The event types a subscription may list. -/
inductive WebhookEventType where
  | commentCreated
  | commentMentioned
  | commentUpdated
  | commentResolved
  | commentReopened
  | commentDeleted
  | fileChanged
  deriving DecidableEq, Repr

/-- `webhook_subscriptions.disabled_reason`. -/
inductive DisabledReason where
  | gone
  | failing
  | manual
  deriving DecidableEq, Repr

/-- A row of `webhook_subscriptions`; times in milliseconds.  The JSON text of
`event_types` is represented by what `parseEventTypes` reads from it: `none` when it is
not a JSON array, else the event types it names. -/
structure SubscriptionRow where
  id : Text
  orgId : Text
  driveId : Option Text
  url : Text
  description : Option Text
  eventTypes : Option (List WebhookEventType)
  pathPrefix : Option Text
  secretCiphertext : Text
  enabled : Bool
  disabledReason : Option DisabledReason
  disabledAt : Option Nat
  consecutiveFailures : Nat
  failingSince : Option Nat
  lastSuccessAt : Option Nat
  lastFailureAt : Option Nat
  createdBy : Text
  createdAt : Nat
  updatedAt : Nat
  deriving DecidableEq, Repr

/-- `webhook_deliveries.status`. -/
inductive DeliveryStatus where
  | pending
  | delivered
  | failed
  deriving DecidableEq, Repr

/-- A row of `webhook_deliveries`, with primary key `id` and
`UNIQUE(subscription_id, event_id)`; times in milliseconds. -/
structure DeliveryRow where
  id : Text
  subscriptionId : Text
  eventId : Text
  eventType : WebhookEventType
  payload : Text
  status : DeliveryStatus
  attempts : Int
  nextAttemptAt : Nat
  leaseUntil : Option Nat
  lastAttemptAt : Option Nat
  lastStatusCode : Option Nat
  lastError : Option Text
  deliveredAt : Option Nat
  createdAt : Nat
  deriving DecidableEq, Repr

/-! ### Comments and events -/

/-- A row of `comments`.  The columns of the text anchor (lines, quoted content and
quote) are not modelled: no operation of this development reads them. -/
structure CommentRow where
  id : Text
  parentId : Option Text
  orgId : Text
  driveId : Text
  path : Text
  fileVersionId : Option Nat
  body : Text
  author : Text
  resolved : Bool
  resolvedBy : Option Text
  resolvedAt : Option Nat
  createdAt : Nat
  updatedAt : Nat
  isDeleted : Bool
  deriving DecidableEq, Repr

/-- A row of `comment_mentions`, with primary key `(commentId, userId)`. -/
structure MentionRow where
  commentId : Text
  userId : Text
  createdAt : Nat
  deriving DecidableEq, Repr

/-- `events.type`. -/
inductive EventType where
  | commentCreated
  | commentMention
  | commentUpdated
  | commentResolved
  | commentReopened
  | commentDeleted
  | commentNotification
  | shareViewed
  deriving DecidableEq, Repr

/-- `events.status`. -/
inductive EventStatus where
  | created
  | ack
  | deleted
  deriving DecidableEq, Repr

/-- A row of `events`, with primary key `id`.  `metadata` is left out: it repeats the
path and the parent of the resource. -/
structure EventRow where
  id : Text
  orgId : Text
  type : EventType
  resourceId : Text
  actor : Text
  target : Option Text
  status : EventStatus
  createdAt : Nat
  deriving DecidableEq, Repr

/-- A member of a drive, joined with the user's email. -/
structure DriveMember where
  driveId : Text
  userId : Text
  email : Text
  deriving DecidableEq, Repr

/-- The database.  `fileVersionSeq` is the AUTOINCREMENT counter of `file_versions`. -/
structure Db where
  fileVersions : List FileVersionRow
  fileVersionSeq : Nat
  files : List FileRow
  subscriptions : List SubscriptionRow
  deliveries : List DeliveryRow
  comments : List CommentRow
  commentMentions : List MentionRow
  events : List EventRow
  driveMembers : List DriveMember
  deriving DecidableEq, Repr

/-- The database without a row. -/
def Db.empty : Db where
  fileVersions := []
  fileVersionSeq := 0
  files := []
  subscriptions := []
  deliveries := []
  comments := []
  commentMentions := []
  events := []
  driveMembers := []

/-- The versions of a path in a drive. -/
def Db.versionsOf (db : Db) (driveId path : Text) : List FileVersionRow :=
  db.fileVersions.filter (fun r => r.path = path ∧ r.driveId = driveId)

/-- The rows of `files` of a path in a drive. -/
def Db.filesOf (db : Db) (driveId path : Text) : List FileRow :=
  db.files.filter (fun f => f.path = path ∧ f.driveId = driveId)

@[simp]
theorem Db.mem_versionsOf {db : Db} {driveId path : Text} {r : FileVersionRow} :
  r ∈ db.versionsOf driveId path ↔ r ∈ db.fileVersions ∧ r.path = path ∧ r.driveId = driveId
  := by
  simp [versionsOf]

@[simp]
theorem Db.mem_filesOf {db : Db} {driveId path : Text} {f : FileRow} :
  f ∈ db.filesOf driveId path ↔ f ∈ db.files ∧ f.path = path ∧ f.driveId = driveId
  := by
  simp [filesOf]

end AgentFs

import AgentFs.Ops.Versioning
import AgentFs.Webhooks.Events

/-!
# Comments

`comment-add`, `-update`, `-delete` and `-resolve`.  Each checks its parameters, then
changes the tables and enqueues the webhooks of the change in one transaction, all in one
segment.  `toLowerCase` is the method of JavaScript strings.
-/

namespace AgentFs

open Async

structure CommentAddParams where
  parentId : Option Text := none
  path : Option Text := none
  body : Text
  mentions : Option (List Text) := none
  deriving DecidableEq, Repr

structure CommentUpdateParams where
  id : Text
  body : Text
  mentions : Option (List Text) := none
  deriving DecidableEq, Repr

structure CommentResolveParams where
  id : Text
  resolved : Bool
  deriving DecidableEq, Repr

/-- A request about comments. -/
inductive CommentRequest where
  | add (params : CommentAddParams)
  | update (params : CommentUpdateParams)
  | delete (id : Text)
  | resolve (params : CommentResolveParams)
  deriving DecidableEq, Repr

/-- What a request about comments answers. -/
inductive CommentResponse where
  | added (row : CommentRow)
  | updated (id body : Text) (updatedAt : Nat)
  | deleted
  | resolved (id : Text) (resolved : Bool) (resolvedBy : Option Text) (resolvedAt : Option Nat)
  deriving DecidableEq, Repr

/-! ### Lookup -/

/-- A live comment of the caller's org and drive. -/
def CommentRow.LiveIn (ctx : OpContext) (row : CommentRow) : Prop :=
  row.orgId = ctx.orgId ∧ row.driveId = ctx.driveId ∧ row.isDeleted = false

instance (ctx : OpContext) (row : CommentRow) : Decidable (row.LiveIn ctx) :=
  inferInstanceAs (Decidable (_ ∧ _))

def getScopedComment (ctx : OpContext) (id : Text) (db : Db) : Option CommentRow :=
  db.comments.find? (fun row => row.id = id ∧ row.LiveIn ctx)

/-- The scoped comment, or the error that there is none. -/
def requireComment (ctx : OpContext) (id : Text) (db : Db) : Except OpError CommentRow :=
  match getScopedComment ctx id db with
  | some row => .ok row
  | none => .error (.notFound
      { message := "Comment not found", suggestion := "Check that the comment ID is correct" })

/-- The member a mention names: by id, else by email without regard to case. -/
def resolveMention (toLowerCase : Text → Text) (members : List DriveMember) (entry : Text) :
    Except OpError Text :=
  match members.find? (fun m => m.userId = entry) with
  | some m => .ok m.userId
  | none =>
      match members.filter (fun m => toLowerCase m.email = toLowerCase entry) with
      | [] => .error (.validation
          { message := "Mention target is not a member of this drive: " ++ String.ofList entry
            field := "mentions" })
      | [m] => .ok m.userId
      | _ => .error (.validation
          { message := "Mention email matches multiple drive members: " ++ String.ofList entry
            field := "mentions"
            suggestion := "Use a user ID to select the intended drive member" })

/-- The users that the mentions name, each once, without the caller. -/
def resolveMentions (toLowerCase : Text → Text) (ctx : OpContext) (raw : List Text) (db : Db) :
    Except OpError (List Text) := do
  let members := db.driveMembers.filter (fun m => m.driveId = ctx.driveId)
  let userIds ← raw.mapM (resolveMention toLowerCase members)
  pure ((userIds.filter (· ≠ ctx.userId)).eraseDups)

/-! ### Statements of the transactions -/

/-- Insert events one after the other; a taken id throws. -/
def insertEvents : List EventRow → Db → Except SqlError Db
  | [], db => .ok db
  | row :: rows, db =>
      if ∃ e ∈ db.events, e.id = row.id then .error (.unique .events)
      else insertEvents rows { db with events := db.events ++ [row] }

/-- An event about a comment, as it is created. -/
def newEvent (ctx : OpContext) (id : Text) (type : EventType) (commentId : Text)
    (target : Option Text) (now : Nat) : EventRow where
  id := id
  orgId := ctx.orgId
  type := type
  resourceId := commentId
  actor := ctx.userId
  target := target
  status := .created
  createdAt := seconds now

/-- One event for each of the users, with the ids `uuid k`, `uuid (k + 1)`, .. -/
def notificationEvents (ctx : OpContext) (type : EventType) (commentId : Text) (k : Nat)
    (x : Input) (userIds : List Text) : List EventRow :=
  userIds.mapIdx (fun n userId =>
    newEvent ctx (x.uuid (k + n)) type commentId (some userId) x.now)

/-- The users that `saveMentions` adds to a comment: those not mentioned in it yet. -/
def newMentions (commentId : Text) (userIds : List Text) (db : Db) : List Text :=
  userIds.filter (fun u => ¬ ∃ m ∈ db.commentMentions, m.commentId = commentId ∧ m.userId = u)

/-- Add users to the mentions of a comment. -/
def saveMentions (commentId : Text) (userIds : List Text) (now : Nat) (db : Db) : Db :=
  { db with commentMentions := db.commentMentions ++
      userIds.map (fun u => ⟨commentId, u, seconds now⟩) }

/-- Update the comments that satisfy `p`. -/
def updateComments (p : CommentRow → Bool) (g : CommentRow → CommentRow) (db : Db) : Db :=
  { db with comments := db.comments.map (fun row => if p row then g row else row) }

/-- The users whose mention in a comment an update removes. -/
def removedMentions (commentId : Text) (userIds : List Text) (db : Db) : List Text :=
  (db.commentMentions.filter (fun m => m.commentId = commentId ∧ m.userId ∉ userIds)).map
    (·.userId)

/-- Remove the mentions of a comment outside the given users, and withdraw their unread
notifications. -/
def removeMentions (ctx : OpContext) (commentId : Text) (userIds : List Text) (db : Db) : Db :=
  let removed := removedMentions commentId userIds db
  { db with
    commentMentions := db.commentMentions.filter (fun m =>
      ¬ (m.commentId = commentId ∧ m.userId ∉ userIds))
    events := db.events.map (fun e =>
      if e.orgId = ctx.orgId ∧ e.type = .commentMention ∧ e.resourceId = commentId ∧
          (∃ u ∈ e.target, u ∈ removed) ∧ e.status = .created then
        { e with status := .deleted }
      else e) }

/-! ### The operations -/

/-- A comment operation that has passed its checks: the path it is about, its answer, and
its transaction up to the outbox, with the events to fan out. -/
structure CommentChange where
  path : Text
  answer : CommentResponse
  tx : Except SqlError (Db × List CommentWebhookEvent)

/-- The webhook events of rows of `events`. -/
def toWebhookEvents (rows : List EventRow) : List CommentWebhookEvent :=
  rows.map (fun e => ⟨e.id, e.type⟩)

/-- The path of a new comment: its own, or that of the root comment it replies to. -/
def commentPath (ctx : OpContext) (params : CommentAddParams) (db : Db) : Except OpError Text := do
  let own := params.path.filter (· ≠ [])
  let path ← match params.parentId.filter (· ≠ []) with
    | none => pure own
    | some parentId =>
        match getScopedComment ctx parentId db with
        | none => throw (.notFound
            { message := "Parent comment not found"
              suggestion := "Check that the parent comment ID is correct and not deleted" })
        | some parent =>
            if (parent.parentId.filter (· ≠ [])).isSome then
              throw (.validation
                { message := "Cannot reply to a reply — only root comments accept replies"
                  suggestion := "Reply to the root comment instead" })
            else
              pure (own.or (some parent.path))
  match path.filter (· ≠ []) with
  | none => throw (.validation
      { message := "path is required for root comments", field := "path" })
  | some path => pure (normalizePath path)

/-- A comment as it is added. -/
def newComment (ctx : OpContext) (params : CommentAddParams) (path : Text) (x : Input) (db : Db) :
    CommentRow where
  id := x.uuid 0
  parentId := params.parentId
  orgId := ctx.orgId
  driveId := ctx.driveId
  path := path
  fileVersionId := (getHeadVersionRow db ctx.driveId path).map (·.id)
  body := params.body
  author := ctx.userId
  resolved := false
  resolvedBy := none
  resolvedAt := none
  createdAt := seconds x.now
  updatedAt := seconds x.now
  isDeleted := false

/-- The transaction of `comment-add` up to the outbox: the comment, its mentions, and the
events for the mentioned users, for the comment and for the members of the drive. -/
def commentAddTx (ctx : OpContext) (row : CommentRow) (mentionUserIds : List Text) (x : Input)
    (db : Db) : Except SqlError (Db × List CommentWebhookEvent) :=
  if ∃ c ∈ db.comments, c.id = row.id then .error (.unique .comments)
  else do
    let added := newMentions row.id mentionUserIds db
    let mentionEvents := notificationEvents ctx .commentMention row.id 1 x added
    let created := newEvent ctx (x.uuid (1 + added.length)) .commentCreated row.id none x.now
    let recipients := (db.driveMembers.filter (fun m =>
      m.driveId = ctx.driveId ∧ m.userId ≠ ctx.userId)).map (·.userId)
    let notifications := notificationEvents ctx .commentNotification row.id (2 + added.length) x
      recipients
    let db' ← insertEvents (mentionEvents ++ [created] ++ notifications)
      (saveMentions row.id added x.now { db with comments := db.comments ++ [row] })
    pure (db', toWebhookEvents (created :: mentionEvents))

def commentAdd (toLowerCase : Text → Text) (ctx : OpContext) (params : CommentAddParams)
    (x : Input) (db : Db) : Except OpError CommentChange := do
  let path ← commentPath ctx params db
  let mentionUserIds ← resolveMentions toLowerCase ctx (params.mentions.getD []) db
  let row := newComment ctx params path x db
  pure ⟨path, .added row, commentAddTx ctx row mentionUserIds x db⟩

/-- The transaction of `comment-update` up to the outbox.  Without mentions in the
parameters they stay as they are. -/
def commentUpdateTx (ctx : OpContext) (params : CommentUpdateParams)
    (mentionUserIds : Option (List Text)) (x : Input) (db : Db) :
    Except SqlError (Db × List CommentWebhookEvent) := do
  let db₁ := updateComments
    (fun c => c.id = params.id ∧ c.orgId = ctx.orgId ∧ c.driveId = ctx.driveId)
    (fun c => { c with body := params.body, updatedAt := seconds x.now }) db
  let (db₂, mentionEvents) := match mentionUserIds with
    | none => (db₁, [])
    | some userIds =>
        let removed := removeMentions ctx params.id userIds db₁
        let added := newMentions params.id userIds removed
        (saveMentions params.id added x.now removed,
          notificationEvents ctx .commentMention params.id 0 x added)
  let updated := newEvent ctx (x.uuid mentionEvents.length) .commentUpdated params.id none x.now
  let db₃ ← insertEvents (mentionEvents ++ [updated]) db₂
  pure (db₃, toWebhookEvents (updated :: mentionEvents))

/-- Only the author may change a comment. -/
def requireAuthor (ctx : OpContext) (row : CommentRow) (message suggestion : String) :
    Except OpError Unit :=
  if row.author = ctx.userId then .ok ()
  else .error (.permissionDenied { message := message, suggestion := suggestion })

def commentUpdate (toLowerCase : Text → Text) (ctx : OpContext) (params : CommentUpdateParams)
    (x : Input) (db : Db) : Except OpError CommentChange := do
  let row ← requireComment ctx params.id db
  requireAuthor ctx row "You can only edit your own comments"
    "Only the comment author can update it"
  let mentionUserIds ← match params.mentions with
    | none => pure none
    | some raw => (resolveMentions toLowerCase ctx raw db).map some
  pure ⟨row.path, .updated params.id params.body (seconds x.now),
    commentUpdateTx ctx params mentionUserIds x db⟩

/-- The transaction of `comment-delete` up to the outbox: a root comment takes its replies
with it. -/
def commentDeleteTx (ctx : OpContext) (row : CommentRow) (x : Input) (db : Db) :
    Except SqlError (Db × List CommentWebhookEvent) := do
  let db₁ := updateComments
    (fun c => (c.id = row.id ∨ (row.parentId.filter (· ≠ []) = none ∧ c.parentId = some row.id)) ∧
      c.orgId = ctx.orgId ∧ c.driveId = ctx.driveId)
    (fun c => { c with isDeleted := true, updatedAt := seconds x.now }) db
  let deleted := newEvent ctx (x.uuid 0) .commentDeleted row.id none x.now
  let db₂ ← insertEvents [deleted] db₁
  pure (db₂, toWebhookEvents [deleted])

def commentDelete (ctx : OpContext) (id : Text) (x : Input) (db : Db) :
    Except OpError CommentChange := do
  let row ← requireComment ctx id db
  requireAuthor ctx row "You can only delete your own comments"
    "Only the comment author can delete it"
  pure ⟨row.path, .deleted, commentDeleteTx ctx row x db⟩

/-- The transaction of `comment-resolve` up to the outbox. -/
def commentResolveTx (ctx : OpContext) (params : CommentResolveParams) (x : Input) (db : Db) :
    Except SqlError (Db × List CommentWebhookEvent) := do
  let db₁ := updateComments
    (fun c => c.id = params.id ∧ c.orgId = ctx.orgId ∧ c.driveId = ctx.driveId)
    (fun c => { c with
      resolved := params.resolved
      resolvedBy := if params.resolved then some ctx.userId else none
      resolvedAt := if params.resolved then some (seconds x.now) else none
      updatedAt := seconds x.now }) db
  let event := newEvent ctx (x.uuid 0)
    (if params.resolved then .commentResolved else .commentReopened) params.id none x.now
  let db₂ ← insertEvents [event] db₁
  pure (db₂, toWebhookEvents [event])

def commentResolve (ctx : OpContext) (params : CommentResolveParams) (x : Input) (db : Db) :
    Except OpError CommentChange := do
  let row ← requireComment ctx params.id db
  if (row.parentId.filter (· ≠ [])).isSome then
    throw (.validation
      { message := "Cannot resolve a reply — only root comments can be resolved"
        suggestion := "Resolve the parent comment instead" })
  else
    pure ⟨row.path,
      .resolved params.id params.resolved (if params.resolved then some ctx.userId else none)
        (if params.resolved then some (seconds x.now) else none),
      commentResolveTx ctx params x db⟩

/-- The checks of a request about comments, and its transaction up to the outbox. -/
def CommentRequest.change (toLowerCase : Text → Text) (ctx : OpContext) (x : Input) (db : Db) :
    CommentRequest → Except OpError CommentChange
  | .add params => commentAdd toLowerCase ctx params x db
  | .update params => commentUpdate toLowerCase ctx params x db
  | .delete id => commentDelete ctx id x db
  | .resolve params => commentResolve ctx params x db

/-- The webhook events among the events of a comment change. -/
def commentEvents (events : List CommentWebhookEvent) : List (Text × WebhookEventType) :=
  events.filterMap (fun e => (internalToWebhook e.internalType).map (fun type => (e.eventId, type)))

/-- Commit a comment change together with its webhook deliveries. -/
def commitComment (ctx : OpContext) (x : Input) (change : CommentChange) :
    Except SqlError (Db × Mutation) := do
  if x.fail then throw .other
  else
    let (db, events) ← change.tx
    let db' ← enqueueCommentWebhooks ctx events x db
    pure (db', ⟨ctx, change.path, commentEvents events⟩)

/-- The program of a request about comments. -/
def CommentRequest.program (toLowerCase : Text → Text) (ctx : OpContext)
    (request : CommentRequest) : HookOp CommentResponse :=
  hookSegment fun db x =>
    match request.change toLowerCase ctx x.toInput db with
    | .error e => (.error e, .quiet, db)
    | .ok change =>
        match commitComment ctx x.toInput change with
        | .error e => (.error (.sql e), .rolledBack, db)
        | .ok (db', mutation) => (.ok change.answer, .mutated mutation, db')

end AgentFs

import AgentFs.Ops.Comments

/-!
# Comment notifications

`comment-notification-read`.  A notification is an event with the user as its target; reading
it moves its status from `created` to `ack`.
-/

namespace AgentFs

/-- The kinds of notifications, `NOTIFICATION_TYPES`. -/
inductive NotificationKind where
  | comment
  | mention
  deriving DecidableEq, Repr

def NotificationKind.type : NotificationKind → EventType
  | .comment => .commentNotification
  | .mention => .commentMention

structure CommentNotificationReadParams where
  ids : Option (List Text) := none
  all : Option Bool := none
  kinds : Option (List NotificationKind) := none
  deriving DecidableEq, Repr

def readBatchSize : Nat := 500

/-- `notificationScope`, of an event joined with its comment. -/
def NotificationScope (ctx : OpContext) (types : List EventType) (e : EventRow) (c : CommentRow) :
    Prop :=
  e.orgId = ctx.orgId ∧ e.type ∈ types ∧ e.target = some ctx.userId ∧ c.LiveIn ctx

instance (ctx : OpContext) (types : List EventType) (e : EventRow) (c : CommentRow) :
    Decidable (NotificationScope ctx types e c) :=
  inferInstanceAs (Decidable (_ ∧ _ ∧ _ ∧ _))

/-- The parameters name ids, or all notifications, and not both. -/
def CommentNotificationReadParams.check (params : CommentNotificationReadParams) :
    Except OpError Unit :=
  if params.all = some true ∧ params.ids.getD [] ≠ [] then
    .error (.validation
      { message := "Provide notification IDs or set all=true, not both"
        suggestion :=
          "Remove ids to mark all notifications, or omit all to mark selected IDs" })
  else if params.all ≠ some true ∧ params.ids.getD [] = [] then
    .error (.validation
      { message := "Provide notification IDs or set all=true"
        suggestion := "Pass ids: [...] to mark selected notifications, or all: true" })
  else .ok ()

/-- The event types that a call reads. -/
def CommentNotificationReadParams.types (params : CommentNotificationReadParams) :
    List EventType :=
  if params.all = some true then (params.kinds.getD [.comment]).map NotificationKind.type
  else [.commentNotification, .commentMention]

/-- The unread notifications in the scope of the call, joined with their comments. -/
def scopedIds (ctx : OpContext) (params : CommentNotificationReadParams) (db : Db) : List Text :=
  (db.events.flatMap (fun e => (db.comments.filter (fun c =>
    e.resourceId = c.id ∧ NotificationScope ctx params.types e c ∧ e.status = .created ∧
      (params.all = some true ∨ e.id ∈ params.ids.getD []))).map (fun _ => e.id)))

/-- What the update of a batch changes. -/
def MarksRead (ctx : OpContext) (types : List EventType) (batch : List Text) (e : EventRow) :
    Prop :=
  e.id ∈ batch ∧ e.orgId = ctx.orgId ∧ e.target = some ctx.userId ∧ e.type ∈ types ∧
    e.status = .created

instance (ctx : OpContext) (types : List EventType) (batch : List Text) (e : EventRow) :
    Decidable (MarksRead ctx types batch e) :=
  inferInstanceAs (Decidable (_ ∧ _ ∧ _ ∧ _ ∧ _))

def markRead (ctx : OpContext) (types : List EventType) (batch : List Text) (db : Db) : Db :=
  { db with events := db.events.map (fun e =>
      if MarksRead ctx types batch e then { e with status := .ack } else e) }

/-- The batches of the ids, in order. -/
def readBatches (ids : List Text) : List (List Text) :=
  (List.range ((ids.length + readBatchSize - 1) / readBatchSize)).map (fun n =>
    (ids.drop (n * readBatchSize)).take readBatchSize)

/-- Mark the batches read, each by a statement of its own; the statement after `failAt` of them
throws. -/
def markBatches (ctx : OpContext) (types : List EventType) :
    Option Nat → List (List Text) → Db → Except OpError Nat × Db
  | _, [], db => (.ok 0, db)
  | some 0, _ :: _, db => (.error (.sql .other), db)
  | failAt, batch :: batches, db =>
      let marked := db.events.countP (fun e => MarksRead ctx types batch e)
      let (answer, db') := markBatches ctx types (failAt.map (· - 1)) batches
        (markRead ctx types batch db)
      (answer.map (marked + ·), db')

/-- The number of notifications that were marked read, and the database. -/
def commentNotificationRead (ctx : OpContext) (params : CommentNotificationReadParams)
    (failAt : Option Nat) (db : Db) : Except OpError Nat × Db :=
  match params.check with
  | .error e => (.error e, db)
  | .ok () => markBatches ctx params.types failAt (readBatches (scopedIds ctx params db)) db

end AgentFs

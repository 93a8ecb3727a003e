import AgentFs.Context

/-!
# The webhook outbox

`enqueueFileWebhooks` and `enqueueCommentWebhooks` insert one delivery row per matching
subscription and event.  Both run inside the transaction of the change they report.
-/

namespace AgentFs

/-- Milliseconds as the seconds a `timestamp` column stores. -/
def seconds (ms : Nat) : Nat := ms / 1000

/-- The subscriptions of the caller's org that are enabled and org-wide or of the
caller's drive. -/
def SubscriptionRow.InScope (ctx : OpContext) (s : SubscriptionRow) : Prop :=
  s.orgId = ctx.orgId ∧ s.enabled = true ∧ (s.driveId = none ∨ s.driveId = some ctx.driveId)

instance (ctx : OpContext) (s : SubscriptionRow) : Decidable (s.InScope ctx) :=
  inferInstanceAs (Decidable (_ ∧ _))

/-- The SQL test of a path against a stored prefix `/dir/`: the path lies in the string
range of the prefix, or in that of its relative form.  Strings are ordered by code
point, as in BINARY collation. -/
def PathInPrefix (pathPrefix path : Text) : Prop :=
  (¬ path < pathPrefix ∧ path < pathPrefix.take (pathPrefix.length - 1) ++ ['0']) ∨
    (¬ path < pathPrefix.drop 1 ∧
      path < (pathPrefix.drop 1).take (pathPrefix.length - 2) ++ ['0'])

instance (pathPrefix path : Text) : Decidable (PathInPrefix pathPrefix path) :=
  inferInstanceAs (Decidable (_ ∨ _))

/-- The path-prefix filter of a subscription accepts the path. -/
def SubscriptionRow.AcceptsPath (path : Text) (s : SubscriptionRow) : Prop :=
  ∀ pathPrefix ∈ s.pathPrefix, PathInPrefix pathPrefix path

instance (path : Text) (s : SubscriptionRow) : Decidable (s.AcceptsPath path) :=
  match h : s.pathPrefix with
  | none => isTrue (by simp [SubscriptionRow.AcceptsPath, h])
  | some pathPrefix =>
      decidable_of_iff (PathInPrefix pathPrefix path) (by
        simp [SubscriptionRow.AcceptsPath, h])

/-- The subscription's readable `event_types` name the type. -/
def SubscriptionRow.Lists (type : WebhookEventType) (s : SubscriptionRow) : Prop :=
  ∃ types ∈ s.eventTypes, type ∈ types

instance (type : WebhookEventType) (s : SubscriptionRow) : Decidable (s.Lists type) :=
  match h : s.eventTypes with
  | none => isFalse (by simp [SubscriptionRow.Lists, h])
  | some types => decidable_of_iff (type ∈ types) (by simp [SubscriptionRow.Lists, h])

/-- The webhook type of an internal event type; the others never produce a webhook. -/
def internalToWebhook : EventType → Option WebhookEventType
  | .commentCreated => some .commentCreated
  | .commentMention => some .commentMentioned
  | .commentUpdated => some .commentUpdated
  | .commentResolved => some .commentResolved
  | .commentReopened => some .commentReopened
  | .commentDeleted => some .commentDeleted
  | .commentNotification => none
  | .shareViewed => none

/-- A delivery row as it is enqueued. -/
def newDelivery (id subscriptionId eventId : Text) (type : WebhookEventType)
    (payload : Text) (now : Nat) : DeliveryRow where
  id := id
  subscriptionId := subscriptionId
  eventId := eventId
  eventType := type
  payload := payload
  status := .pending
  attempts := 0
  nextAttemptAt := now
  leaseUntil := none
  lastAttemptAt := none
  lastStatusCode := none
  lastError := none
  deliveredAt := none
  createdAt := now

/-- Insert a delivery row; a taken id or a second row for one (subscription, event)
throws. -/
def insertDelivery (db : Db) (row : DeliveryRow) : Except SqlError Db :=
  if ∃ r ∈ db.deliveries, r.id = row.id ∨
      (r.subscriptionId = row.subscriptionId ∧ r.eventId = row.eventId) then
    .error (.unique .webhookDeliveries)
  else
    .ok { db with deliveries := db.deliveries ++ [row] }

/-- Insert a delivery row, or skip it when its (subscription, event) has one; a taken id
throws. -/
def insertDeliveryOrIgnore (db : Db) (row : DeliveryRow) : Except SqlError Db :=
  if ∃ r ∈ db.deliveries, r.subscriptionId = row.subscriptionId ∧ r.eventId = row.eventId then
    .ok db
  else
    insertDelivery db row

/-- Insert rows one after the other. -/
def insertAll (insert : Db → DeliveryRow → Except SqlError Db) :
    Db → List DeliveryRow → Except SqlError Db
  | db, [] => .ok db
  | db, row :: rows => do
      let db' ← insert db row
      insertAll insert db' rows

/-- The ids of the subscriptions that get a `file.changed` delivery for a path. -/
def fileSubscribers (ctx : OpContext) (path : Text) (db : Db) : List Text :=
  ((db.subscriptions.filter (fun s => s.InScope ctx ∧ s.AcceptsPath path)).filter
    (fun s => s.Lists .fileChanged)).map (·.id)

/-- The `file.changed` rows of one file change. -/
def fileDeliveries (ctx : OpContext) (path : Text) (x : Input) (db : Db) : List DeliveryRow :=
  (fileSubscribers ctx path db).mapIdx (fun n id =>
    newDelivery (x.deliveryId n) id (x.uuid 0) .fileChanged (x.payload (x.uuid 0)) x.now)

/-- One `file.changed` delivery per matching subscription, under one new event id. -/
def enqueueFileWebhooks (ctx : OpContext) (path : Text) (x : Input) (db : Db) :
    Except SqlError Db :=
  insertAll insertDelivery db (fileDeliveries ctx path x db)

/-- An `events` row a comment operation wrote, to fan out. -/
structure CommentWebhookEvent where
  eventId : Text
  internalType : EventType
  deriving DecidableEq, Repr

/-- The mapped events of a comment change, each with the subscriptions that list it. -/
def commentWork (ctx : OpContext) (events : List CommentWebhookEvent) (db : Db) :
    List (CommentWebhookEvent × WebhookEventType × Text) :=
  events.flatMap (fun event =>
    match internalToWebhook event.internalType with
    | none => []
    | some type =>
        ((db.subscriptions.filter (fun s => s.InScope ctx)).filter
          (fun s => s.Lists type)).map (fun s => (event, type, s.id)))

/-- One delivery per (event, matching subscription). -/
def enqueueCommentWebhooks (ctx : OpContext) (events : List CommentWebhookEvent)
    (x : Input) (db : Db) : Except SqlError Db :=
  insertAll insertDeliveryOrIgnore db
    ((commentWork ctx events db).mapIdx (fun n w =>
      newDelivery (x.deliveryId n) w.2.2 w.1.eventId w.2.1 (x.payload w.1.eventId) x.now))

/-- Inserting deliveries changes no other table. -/
theorem insertAll_frame {insert : Db → DeliveryRow → Except SqlError Db}
    (hinsert : ∀ {db row db'}, insert db row = .ok db' →
      db' = { db with deliveries := db'.deliveries })
    {rows : List DeliveryRow} {db db' : Db} (h : insertAll insert db rows = .ok db') :
  db' = { db with deliveries := db'.deliveries }
  := by
  induction rows generalizing db with
  | nil =>
      cases h
      rfl
  | cons row rows ih =>
      cases hrow : insert db row with
      | error e => simp [insertAll, hrow, bind, Except.bind] at h
      | ok db₁ =>
          simp only [insertAll, hrow, bind, Except.bind] at h
          have hrest := ih h
          rw [hinsert hrow] at hrest
          exact hrest

theorem insertDelivery_frame {db db' : Db} {row : DeliveryRow}
    (h : insertDelivery db row = .ok db') :
  db' = { db with deliveries := db'.deliveries }
  := by
  unfold insertDelivery at h
  split at h
  · cases h
  · cases h
    rfl

theorem enqueueFileWebhooks_frame {ctx : OpContext} {path : Text} {x : Input} {db db' : Db}
    (h : enqueueFileWebhooks ctx path x db = .ok db') :
  db' = { db with deliveries := db'.deliveries }
  := insertAll_frame insertDelivery_frame h

theorem enqueueCommentWebhooks_frame {ctx : OpContext} {events : List CommentWebhookEvent}
    {x : Input} {db db' : Db} (h : enqueueCommentWebhooks ctx events x db = .ok db') :
  db' = { db with deliveries := db'.deliveries }
  := by
  apply insertAll_frame _ h
  intro db row db' hrow
  unfold insertDeliveryOrIgnore at hrow
  split at hrow
  · cases hrow
    rfl
  · exact insertDelivery_frame hrow

end AgentFs

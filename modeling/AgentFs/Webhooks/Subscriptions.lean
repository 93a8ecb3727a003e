import AgentFs.Ops.Content
import AgentFs.Webhooks.Events

/-!
# Webhook subscriptions

`webhook-create`, `-update`, `-delete` and `-redeliver`, with the lookup and the scoping
of `subscriptions.ts` and `deliveries.ts`.  The check of a URL awaits; everything else of
an operation is one segment.
-/

namespace AgentFs

open Async

inductive WebhookScope where
  | drive
  | org
  deriving DecidableEq, Repr

structure WebhookCreateParams where
  scope : WebhookScope := .drive
  url : Text
  eventTypes : List WebhookEventType
  description : Option Text := none
  pathPrefix : Option Text := none
  deriving DecidableEq, Repr

structure WebhookUpdateParams where
  id : Text
  url : Option Text := none
  eventTypes : Option (List WebhookEventType) := none
  description : Option Text := none
  pathPrefix : Option Text := none
  enabled : Option Bool := none
  rotateSecret : Bool := false
  deriving DecidableEq, Repr

/-- What the operations on webhooks answer. -/
inductive HookResponse where
  | webhook (row : SubscriptionRow)
  | deleted
  | delivery (row : DeliveryRow)
  deriving DecidableEq, Repr

/-! ### Normalization -/

/-- A trimmed description; a blank one is none. -/
def normalizeDescription (description : Option Text) : Option Text :=
  (description.map trim).filter (· ≠ [])

/-- A path prefix as a normalized `/dir/`; `none` means every path. -/
def normalizeWebhookPathPrefix (pathPrefix : Option Text) : Except OpError (Option Text) :=
  match (pathPrefix.map trim).filter (· ≠ []) with
  | none => .ok none
  | some trimmed =>
      if KeyInsideDrive trimmed then
        let normalized := normalizePrefix trimmed
        .ok (if normalized = ['/'] then none else some normalized)
      else
        .error (.validation
          { message :=
              if '\x00' ∈ trimmed then "pathPrefix must not contain NUL bytes"
              else "pathPrefix must not contain '.' or '..' segments"
            field := "pathPrefix"
            suggestion := "Give a directory inside the drive, e.g. /docs/" })

/-- The stored event types: each once. -/
def encodeEventTypes (eventTypes : List WebhookEventType) : Option (List WebhookEventType) :=
  some eventTypes.eraseDups

/-! ### Lookup -/

/-- A subscription is visible from the org and the drive of the caller. -/
def SubscriptionRow.VisibleTo (ctx : OpContext) (s : SubscriptionRow) : Prop :=
  s.orgId = ctx.orgId ∧ (s.driveId = none ∨ s.driveId = some ctx.driveId)

instance (ctx : OpContext) (s : SubscriptionRow) : Decidable (s.VisibleTo ctx) :=
  inferInstanceAs (Decidable (_ ∧ _))

/-- Refuse a caller who may not manage the scope. -/
def authorizeWebhookScope (x : HookInput) : Except OpError Unit :=
  match x.denied with
  | some info => .error (.permissionDenied info)
  | none => .ok ()

/-- A subscription the caller sees and may manage. -/
def getScopedSubscription (ctx : OpContext) (id : Text) (x : HookInput) (db : Db) :
    Except OpError SubscriptionRow :=
  match db.subscriptions.find? (fun s => s.id = id ∧ s.VisibleTo ctx) with
  | none => .error (.notFound
      { message := "Webhook not found: " ++ String.ofList id
        suggestion := "Run webhook-list to see the hooks of this drive and org" })
  | some row => do
      authorizeWebhookScope x
      pure row

/-- A delivery whose subscription the caller sees and may manage, and that subscription. -/
def getScopedDelivery (ctx : OpContext) (deliveryId : Text) (x : HookInput) (db : Db) :
    Except OpError (DeliveryRow × SubscriptionRow) :=
  let found := (db.deliveries.filter (fun d => d.id = deliveryId)).findSome? (fun d =>
    (db.subscriptions.find? (fun s => s.id = d.subscriptionId ∧ s.VisibleTo ctx)).map
      (fun s => (d, s)))
  match found with
  | none => .error (.notFound
      { message := "Webhook delivery not found: " ++ String.ofList deliveryId
        suggestion := "Run webhook-deliveries <webhook-id> to see a hook's deliveries" })
  | some row => do
      authorizeWebhookScope x
      pure row

/-! ### Changes to the tables -/

/-- Update the subscription with the given id. -/
def updateSubscription (id : Text) (g : SubscriptionRow → SubscriptionRow) (db : Db) : Db :=
  { db with subscriptions := db.subscriptions.map (fun s => if s.id = id then g s else s) }

/-- A subscription as it is disabled. -/
def SubscriptionRow.disable (reason : DisabledReason) (now : Nat) (s : SubscriptionRow) :
    SubscriptionRow :=
  { s with
    enabled := false
    disabledReason := some reason
    disabledAt := some now
    updatedAt := now }

/-- A delivery that fails because its subscription is disabled. -/
def DeliveryRow.failDisabled (d : DeliveryRow) : DeliveryRow :=
  { d with
    status := .failed
    lastError := some "subscription disabled".toList
    leaseUntil := none }

/-- Disable a subscription and fail its pending deliveries. -/
def disableSubscription (id : Text) (reason : DisabledReason) (now : Nat) (db : Db) : Db :=
  { updateSubscription id (·.disable reason now) db with
    deliveries := db.deliveries.map (fun d =>
      if d.subscriptionId = id ∧ d.status = .pending then d.failDisabled else d) }

/-- Insert a subscription; a taken id throws. -/
def insertSubscription (row : SubscriptionRow) (db : Db) : Except SqlError Db :=
  if ∃ s ∈ db.subscriptions, s.id = row.id then .error (.unique .webhookSubscriptions)
  else .ok { db with subscriptions := db.subscriptions ++ [row] }

/-- Delete a subscription, and its deliveries with it. -/
def deleteSubscription (id : Text) (db : Db) : Db :=
  { db with
    subscriptions := db.subscriptions.filter (fun s => s.id ≠ id)
    deliveries := db.deliveries.filter (fun d => d.subscriptionId ≠ id) }

/-! ### The operations -/

/-- A subscription as it is created. -/
def newSubscription (ctx : OpContext) (params : WebhookCreateParams)
    (pathPrefix : Option Text) (x : HookInput) : SubscriptionRow where
  id := x.uuid 0
  orgId := ctx.orgId
  driveId := if params.scope = .drive then some ctx.driveId else none
  url := params.url
  description := normalizeDescription params.description
  eventTypes := encodeEventTypes params.eventTypes
  pathPrefix := pathPrefix
  secretCiphertext := x.secretCiphertext
  enabled := true
  disabledReason := none
  disabledAt := none
  consecutiveFailures := 0
  failingSince := none
  lastSuccessAt := none
  lastFailureAt := none
  createdBy := ctx.userId
  createdAt := x.now
  updatedAt := x.now

/-- What `webhook-create` does once the URL is checked. -/
def createWebhook (ctx : OpContext) (params : WebhookCreateParams) (x : HookInput) (db : Db) :
    Except OpError (SubscriptionRow × Db) := do
  let pathPrefix ← normalizeWebhookPathPrefix params.pathPrefix
  let existing := (db.subscriptions.filter (fun s => s.orgId = ctx.orgId)).length
  if x.fail then
    throw (.sql .other)
  else if existing ≥ maxSubscriptionsPerOrg then
    throw (.validation
      { message := "This org already has " ++ toString existing ++ " webhooks; the limit is " ++
          toString maxSubscriptionsPerOrg
        suggestion := "Delete an unused webhook with webhook-delete first" })
  else
    let row := newSubscription ctx params pathPrefix x
    let db' ← (insertSubscription row db).mapError .sql
    pure (row, db')

/-- The end of `webhook-create`, after the URL check has answered. -/
def webhookCreateTx (ctx : OpContext) (params : WebhookCreateParams) (db : Db) (x : HookInput) :
    Except OpError HookResponse × HookAction × Db :=
  match x.urlError with
  | some info => (.error (.validation info), .quiet, db)
  | none =>
      match createWebhook ctx params x db with
      | .error e => (.error e, .quiet, db)
      | .ok (row, db') => (.ok (.webhook row), .created row.id, db')

def webhookCreate (ctx : OpContext) (params : WebhookCreateParams) : HookOp HookResponse := do
  hookSegment fun db x => (authorizeWebhookScope x, .quiet, db)
  hookSegment (webhookCreateTx ctx params)

/-- The columns `webhook-update` sets. -/
def updatedSubscription (params : WebhookUpdateParams) (pathPrefix : Option (Option Text))
    (x : HookInput) (s : SubscriptionRow) : SubscriptionRow :=
  let s := { s with
    updatedAt := x.now
    url := params.url.getD s.url
    eventTypes := (params.eventTypes.map encodeEventTypes).getD s.eventTypes
    description := (params.description.map (fun d => normalizeDescription (some d))).getD
      s.description
    pathPrefix := pathPrefix.getD s.pathPrefix
    secretCiphertext := if params.rotateSecret then x.secretCiphertext else s.secretCiphertext }
  if params.enabled = some true then
    { s with
      enabled := true
      disabledReason := none
      disabledAt := none
      consecutiveFailures := 0
      failingSince := none }
  else s

/-- The end of `webhook-update`: the transaction, and the updated row.  Whether to disable
is decided by `row`, as it was looked up at the start; `awaited` says that this was in an
earlier segment. -/
def updateWebhook (params : WebhookUpdateParams) (row : SubscriptionRow) (awaited : Bool)
    (db : Db) (x : HookInput) : Except OpError HookResponse × HookAction × Db :=
  let pathPrefix : Except OpError (Option (Option Text)) :=
    match params.pathPrefix with
    | none => .ok none
    | some p => (normalizeWebhookPathPrefix (some p)).map some
  match pathPrefix with
  | .error e => (.error e, .quiet, db)
  | .ok pathPrefix =>
      if x.fail then (.error (.sql .other), .quiet, db)
      else
        let db₁ := updateSubscription row.id (updatedSubscription params pathPrefix x) db
        let disables : Bool := params.enabled = some false ∧ row.enabled
        let db₂ := if disables then disableSubscription row.id .manual x.now db₁ else db₁
        (match db₂.subscriptions.find? (fun s => s.id = row.id) with
          | some updated => .ok (.webhook updated)
          | none => .error .internal,
          if disables then .disabled row.id else .updated row.id params.enabled awaited, db₂)

/-- The end of `webhook-update`, after the URL check has answered. -/
def webhookUpdateTx (params : WebhookUpdateParams) (row : SubscriptionRow) (db : Db)
    (x : HookInput) : Except OpError HookResponse × HookAction × Db :=
  match x.urlError with
  | some info => (.error (.validation info), .quiet, db)
  | none => updateWebhook params row true db x

/-- Without a new URL there is nothing to await. -/
def webhookUpdate (ctx : OpContext) (params : WebhookUpdateParams) : HookOp HookResponse :=
  match params.url with
  | none => hookSegment fun db x =>
      match getScopedSubscription ctx params.id x db with
      | .error e => (.error e, .quiet, db)
      | .ok row => updateWebhook params row false db x
  | some _ => do
      let row ← hookSegment fun db x =>
        match getScopedSubscription ctx params.id x db with
        | .error e => (.error e, .quiet, db)
        | .ok row => (.ok row, .lookedUp row.id row.enabled, db)
      hookSegment (webhookUpdateTx params row)

def webhookDelete (ctx : OpContext) (id : Text) : HookOp HookResponse :=
  hookSegment fun db x =>
    match getScopedSubscription ctx id x db with
    | .error e => (.error e, .quiet, db)
    | .ok row =>
        if x.fail then (.error (.sql .other), .quiet, db)
        else (.ok .deleted, .deleted row.id, deleteSubscription row.id db)

/-- A delivery that `webhook-redeliver` may queue again: it is not being sent right now. -/
def DeliveryRow.Redeliverable (now : Nat) (d : DeliveryRow) : Prop :=
  d.status ≠ .pending ∨ ∀ lease ∈ d.leaseUntil, lease ≤ now

instance (now : Nat) (d : DeliveryRow) : Decidable (d.Redeliverable now) :=
  inferInstanceAs (Decidable (_ ∨ _))

/-- A delivery queued to be sent again now. -/
def DeliveryRow.requeue (now : Nat) (d : DeliveryRow) : DeliveryRow :=
  { d with status := .pending, nextAttemptAt := now, leaseUntil := none }

/-- Queue the deliveries with the given id that are not being sent. -/
def requeueDelivery (id : Text) (now : Nat) (db : Db) : Db :=
  { db with deliveries := db.deliveries.map (fun d =>
      if d.id = id ∧ d.Redeliverable now then d.requeue now else d) }

def webhookRedeliver (ctx : OpContext) (deliveryId : Text) : HookOp HookResponse :=
  hookSegment fun db x =>
    match getScopedDelivery ctx deliveryId x db with
    | .error e => (.error e, .quiet, db)
    | .ok (delivery, subscription) =>
        if x.fail then (.error (.sql .other), .quiet, db)
        else if subscription.enabled = false then
          (.error (.validation
            { message := "Webhook " ++ String.ofList subscription.id ++ " is disabled (" ++
                (match subscription.disabledReason.getD .manual with
                  | .gone => "gone"
                  | .failing => "failing"
                  | .manual => "manual") ++
                "); its deliveries cannot be redelivered"
              field := "deliveryId"
              suggestion := "Re-enable it first: webhook update " ++
                String.ofList subscription.id ++ " --enable" }), .quiet, db)
        else
          match db.deliveries.find? (fun d => d.id = delivery.id ∧ d.Redeliverable x.now) with
          | some row =>
              (.ok (.delivery (row.requeue x.now)), .redelivered delivery.id,
                requeueDelivery delivery.id x.now db)
          | none =>
              (.error (.editConflict
                { message := "Webhook delivery " ++ String.ofList delivery.id ++
                    " is being sent right now"
                  suggestion := "Wait for the attempt to finish, then check webhook-deliveries" }),
                .quiet, db)

end AgentFs

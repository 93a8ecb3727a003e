import AgentFs.Webhooks.Outbox

/-!
# The webhook system

The constants of `webhooks/events.ts`, and the system that webhooks are part of: file and
comment operations enqueue deliveries, the webhook operations manage subscriptions and
deliveries, and the workers send what is due.  All of them are programs over one
`HookWorld`, the world together with the last reading of the clock.  What a segment did
is its `HookAction`, reported with the time at which it did it.
-/

namespace AgentFs

open Async

/-! ### Constants -/

/-- The delay before each retry, in milliseconds. -/
def retryScheduleDefaultMs : List Nat :=
  [5000, 300000, 1800000, 7200000, 18000000, 36000000, 36000000]

/-- A subscription that fails continuously for this long is disabled. -/
def autoDisableAfterMs : Nat := 5 * 86400000

/-- How long a claimed delivery stays leased. -/
def leaseMs : Nat := 60000

/-- How long a delivery waits when its signing secret cannot be decrypted. -/
def serverErrorRetryMs : Nat := 60000

/-- The most subscriptions of an org. -/
def maxSubscriptionsPerOrg : Nat := 25

/-- Delivered and failed rows older than this are pruned. -/
def deliveryRetentionMs : Nat := 30 * 86400000

/-- The most deliveries a worker claims at once. -/
def defaultWebhookBatch : Nat := 10

/-! ### What the parts of the system report -/

/-- A claimed delivery, as the claim hands it back. -/
structure ClaimedDelivery where
  id : Text
  subscriptionId : Text
  eventId : Text
  payload : Text
  /-- Attempts so far, including this one. -/
  attempts : Int
  /-- The lease this claim set; recording a result requires it to still hold. -/
  leaseUntil : Nat
  deriving DecidableEq, Repr

/-- What `sendWebhook` returns. -/
structure SendWebhookResult where
  ok : Bool
  statusCode : Option Nat
  error : Option Text
  deriving DecidableEq, Repr

/-- What became of a claim. -/
inductive Outcome where
  | delivered
  | retrying
  | failed
  | released
  | deferred
  deriving DecidableEq, Repr

/-- A file or comment change: who made it, the path it is about, and the webhook events it
produced, each with its type. -/
structure Mutation where
  ctx : OpContext
  path : Text
  events : List (Text × WebhookEventType)
  deriving DecidableEq, Repr

/-- What a segment did to the webhook tables. -/
inductive HookAction where
  /-- Nothing. -/
  | quiet
  /-- The transaction of a file or comment change committed. -/
  | mutated (mutation : Mutation)
  /-- The transaction of a file or comment change threw. -/
  | rolledBack
  | created (id : Text)
  /-- `webhook-update` has found the subscription, enabled or not, and awaits the URL check. -/
  | lookedUp (id : Text) (enabled : Bool)
  /-- `webhook-update` committed without disabling the subscription; `enabled` is what it was
  asked for, and `awaited` says that it looked the subscription up in an earlier segment. -/
  | updated (id : Text) (enabled : Option Bool) (awaited : Bool)
  /-- `webhook-update` committed and disabled the subscription. -/
  | disabled (id : Text)
  | deleted (id : Text)
  | redelivered (deliveryId : Text)
  | claimed (claims : List ClaimedDelivery)
  | deferred (claim : ClaimedDelivery) (outcome : Option Outcome)
  /-- A result was recorded; `disabled` says that this disabled the subscription. -/
  | recorded (claim : ClaimedDelivery) (outcome : Option Outcome) (disabled : Bool)
  | pruned
  deriving DecidableEq, Repr

/-- An action and the time at which it was taken. -/
structure HookEvent where
  time : Nat
  action : HookAction
  deriving DecidableEq, Repr

/-! ### Programs -/

/-- The world, and the last reading of the clock in milliseconds. -/
structure HookWorld where
  clock : Nat
  world : World

/-- What one segment takes from outside, besides the input of a file operation. -/
structure HookInput extends Input where
  /-- Why the caller may not manage webhooks of the scope, if so. -/
  denied : Option ErrorInfo
  /-- Why the URL was refused, if so. -/
  urlError : Option ErrorInfo
  /-- The encrypted form of a new signing secret. -/
  secretCiphertext : Text
  /-- Why the signing secret of a subscription cannot be decrypted, if so. -/
  decryptError : Text → Option Text
  /-- Which outstanding send is the next to return, and what it returns. -/
  pick : Nat
  result : SendWebhookResult
  /-- The worker is being stopped. -/
  stopped : Bool
  /-- `webhookRetryJitter`: a delay within 20% of the given one. -/
  jitter : Nat → Nat

/-- The program of a request to the webhook system. -/
abbrev HookOp (α : Type) := Fallible HookWorld HookInput HookEvent OpError α

/-- A segment that reads and changes the database only. -/
def hookSegment {α : Type} (f : Db → HookInput → Except OpError α × HookAction × Db) :
    HookOp α :=
  Fallible.atomic fun w x =>
    let r := f w.world.db x
    (r.1, ⟨x.now, r.2.1⟩, ⟨x.now, { w.world with db := r.2.2 }⟩)

/-- The configuration of the webhook system. -/
abbrev HookConfig := Conf HookWorld HookEvent

end AgentFs

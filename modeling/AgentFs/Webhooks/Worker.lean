import Mathlib.Data.List.Sort
import AgentFs.Webhooks.Subscriptions

/-!
# The webhook worker

`claimDueDeliveries`, `deferClaim`, `recordResult`, `processDueWebhooks` and
`pruneWebhookDeliveries` of `worker.ts`.  A tick claims what is due and then settles its
claims one by one, in the order in which the sends return.  Claims that cannot be sent
are deferred right after the claim in the source; here each of them is a segment of its
own, which only allows more interleavings.
-/

namespace AgentFs

open Async

/-- The settings of a tick. -/
structure WebhookTickOptions where
  batch : Nat := defaultWebhookBatch
  schedule : List Nat := retryScheduleDefaultMs
  autoDisableMs : Nat := autoDisableAfterMs
  deriving DecidableEq, Repr

/-! ### Claiming -/

/-- A delivery is due: pending, its time has come, no lease holds it, and its subscription
is enabled. -/
def DeliveryRow.Due (now : Nat) (db : Db) (d : DeliveryRow) : Prop :=
  d.status = .pending ∧ d.nextAttemptAt ≤ now ∧ (∀ lease ∈ d.leaseUntil, lease < now) ∧
    ∃ s ∈ db.subscriptions, s.id = d.subscriptionId ∧ s.enabled = true

instance (now : Nat) (db : Db) (d : DeliveryRow) : Decidable (d.Due now db) :=
  inferInstanceAs (Decidable (_ ∧ _))

/-- The ids of the first `batch` due deliveries, by the time of their next attempt. -/
def dueIds (now batch : Nat) (db : Db) : List Text :=
  (((db.deliveries.filter (fun d => d.Due now db)).insertionSort
    (fun d e => d.nextAttemptAt ≤ e.nextAttemptAt)).take batch).map (·.id)

/-- A delivery with the lease and the attempt of a claim. -/
def DeliveryRow.leased (now : Nat) (d : DeliveryRow) : DeliveryRow :=
  { d with
    leaseUntil := some (now + leaseMs)
    attempts := d.attempts + 1
    lastAttemptAt := some now }

/-- The claim of a leased delivery. -/
def DeliveryRow.toClaim (leaseUntil : Nat) (d : DeliveryRow) : ClaimedDelivery where
  id := d.id
  subscriptionId := d.subscriptionId
  eventId := d.eventId
  payload := d.payload
  attempts := d.attempts
  leaseUntil := leaseUntil

/-- Lease the due deliveries: the claims, and the database after. -/
def claimDueDeliveries (now batch : Nat) (db : Db) : List ClaimedDelivery × Db :=
  let ids := dueIds now batch db
  (((db.deliveries.filter (fun d => d.id ∈ ids)).map (·.leased now)).map
      (·.toClaim (now + leaseMs)),
    { db with deliveries := db.deliveries.map (fun d => if d.id ∈ ids then d.leased now else d) })

/-! ### Recording -/

/-- The fence of every write about a claim: the row is pending under the claim's lease. -/
def ClaimedDelivery.Fences (claim : ClaimedDelivery) (d : DeliveryRow) : Prop :=
  d.id = claim.id ∧ d.status = .pending ∧ d.leaseUntil = some claim.leaseUntil

instance (claim : ClaimedDelivery) (d : DeliveryRow) : Decidable (claim.Fences d) :=
  inferInstanceAs (Decidable (_ ∧ _))

/-- Update the row of a claim behind its fence; `none` when no row is changed. -/
def updateFenced (claim : ClaimedDelivery) (g : DeliveryRow → DeliveryRow) (db : Db) :
    Option Db :=
  if ∃ d ∈ db.deliveries, claim.Fences d then
    some { db with deliveries := db.deliveries.map (fun d => if claim.Fences d then g d else d) }
  else
    none

/-- Postpone a claim after an error that is not the receiver's fault. -/
def deferClaim (claim : ClaimedDelivery) (error : Text) (now : Nat) (db : Db) :
    Option Outcome × Db :=
  match updateFenced claim (fun d =>
      { d with
        attempts := d.attempts - 1
        nextAttemptAt := now + serverErrorRetryMs
        leaseUntil := none
        lastError := some error }) db with
  | none => (none, db)
  | some db' => (some .deferred, db')

/-- What recording a result did: the outcome, `none` when the fence did not hold, whether
it disabled the subscription, and the database after. -/
structure Recorded where
  outcome : Option Outcome
  disabled : Bool
  db : Db

/-- A failed attempt in the row of its claim: retried on schedule, or given up. -/
def DeliveryRow.attemptFailed (outcome : Outcome) (result : SendWebhookResult) (next : Nat)
    (d : DeliveryRow) : DeliveryRow :=
  if outcome = .retrying then
    { d with
      nextAttemptAt := next
      leaseUntil := none
      lastStatusCode := result.statusCode
      lastError := result.error }
  else
    { d with
      status := .failed
      leaseUntil := none
      lastStatusCode := result.statusCode
      lastError := result.error }

/-- A failed attempt in the counters of the subscription. -/
def SubscriptionRow.countFailure (now : Nat) (s : SubscriptionRow) : SubscriptionRow :=
  { s with
    consecutiveFailures := s.consecutiveFailures + 1
    failingSince := some (s.failingSince.getD now)
    lastFailureAt := some now }

/-- The subscription is enabled and has been failing for long enough. -/
def SubscriptionRow.Failing (now autoDisableMs : Nat) (s : SubscriptionRow) : Prop :=
  s.enabled = true ∧ ∃ since ∈ s.failingSince, since + autoDisableMs ≤ now

instance (now autoDisableMs : Nat) (s : SubscriptionRow) : Decidable (s.Failing now autoDisableMs) :=
  match h : s.failingSince with
  | none => isFalse (by simp [SubscriptionRow.Failing, h])
  | some since =>
      decidable_of_iff (s.enabled = true ∧ since + autoDisableMs ≤ now) (by
        simp [SubscriptionRow.Failing, h])

/-- Record the result of one attempt.  The index into the schedule is not negative: a
claim has counted at least one attempt. -/
def recordResult (opts : WebhookTickOptions) (claim : ClaimedDelivery) (x : HookInput)
    (db : Db) : Recorded :=
  let result := x.result
  if result.ok then
    match updateFenced claim (fun d =>
        { d with
          status := .delivered
          deliveredAt := some x.now
          lastStatusCode := result.statusCode
          lastError := none
          leaseUntil := none }) db with
    | none => ⟨none, false, db⟩
    | some db₁ =>
        ⟨some .delivered, false, updateSubscription claim.subscriptionId (fun s =>
          { s with
            consecutiveFailures := 0
            failingSince := none
            lastSuccessAt := some x.now }) db₁⟩
  else if x.stopped then
    match updateFenced claim (fun d => { d with leaseUntil := none }) db with
    | none => ⟨none, false, db⟩
    | some db₁ => ⟨some .released, false, db₁⟩
  else if result.statusCode = some 410 then
    match updateFenced claim (fun d =>
        { d with
          status := .failed
          lastStatusCode := some 410
          lastError := some "410 Gone: subscription disabled".toList
          leaseUntil := none }) db with
    | none => ⟨none, false, db⟩
    | some db₁ =>
        ⟨some .failed, true, disableSubscription claim.subscriptionId .gone x.now
          (updateSubscription claim.subscriptionId
            (fun s => { s with lastFailureAt := some x.now }) db₁)⟩
  else
    let retryIndex := claim.attempts - 1
    let outcome : Outcome := if retryIndex < opts.schedule.length then .retrying else .failed
    let next := x.now + x.jitter ((opts.schedule[retryIndex.toNat]?).getD 0)
    match updateFenced claim (·.attemptFailed outcome result next) db with
    | none => ⟨none, false, db⟩
    | some db₁ =>
        let db₂ := updateSubscription claim.subscriptionId (·.countFailure x.now) db₁
        if ∃ s ∈ db₂.subscriptions, s.id = claim.subscriptionId ∧
            s.Failing x.now opts.autoDisableMs then
          ⟨some .failed, true, disableSubscription claim.subscriptionId .failing x.now db₂⟩
        else
          ⟨some outcome, false, db₂⟩

/-! ### A tick -/

/-- What a tick knows of the subscription of a claim. -/
inductive JobSubscription where
  /-- It is gone, and its deliveries with it. -/
  | missing
  /-- Its signing secret cannot be decrypted. -/
  | error (message : Text)
  | ready
  deriving DecidableEq, Repr

/-- The subscription of a claim, with its secret decrypted. -/
def lookUpJob (x : HookInput) (db : Db) (claim : ClaimedDelivery) : JobSubscription :=
  match db.subscriptions.find? (fun s => s.id = claim.subscriptionId) with
  | none => .missing
  | some s =>
      match x.decryptError s.id with
      | some e => .error ("cannot decrypt the signing secret: ".toList ++ e)
      | none => .ready

/-- The counts of a tick. -/
structure WebhookTickSummary where
  claimed : Nat := 0
  delivered : Nat := 0
  retrying : Nat := 0
  failed : Nat := 0
  released : Nat := 0
  deferred : Nat := 0
  deriving DecidableEq, Repr

/-- Count an outcome. -/
def WebhookTickSummary.count (summary : WebhookTickSummary) :
    Option Outcome → WebhookTickSummary
  | none => summary
  | some .delivered => { summary with delivered := summary.delivered + 1 }
  | some .retrying => { summary with retrying := summary.retrying + 1 }
  | some .failed => { summary with failed := summary.failed + 1 }
  | some .released => { summary with released := summary.released + 1 }
  | some .deferred => { summary with deferred := summary.deferred + 1 }

/-- A claim of a tick that is still to be settled. -/
abbrev Job := ClaimedDelivery × JobSubscription

/-- Settle one claim.  An error of the database is logged, and the row left to its lease. -/
def settleJob (opts : WebhookTickOptions) (job : Job) (db : Db) (x : HookInput) :
    Option Outcome × HookAction × Db :=
  if x.fail then (none, .quiet, db)
  else
    match job.2 with
    | .missing => (none, .quiet, db)
    | .error message =>
        let r := deferClaim job.1 message x.now db
        (r.1, .deferred job.1 r.1, r.2)
    | .ready =>
        let r := recordResult opts job.1 x db
        (r.outcome, .recorded job.1 r.outcome r.disabled, r.db)

/-- Settle the jobs that are left, each time the one whose send returns next. -/
def settleJobs (opts : WebhookTickOptions) :
    Nat → List Job → WebhookTickSummary → HookOp WebhookTickSummary
  | 0, _, summary => pure summary
  | n + 1, jobs, summary => do
      let (jobs', summary') ← hookSegment fun db x =>
        let i := x.pick % jobs.length
        match jobs[i]? with
        | none => (.ok (jobs, summary), .quiet, db)
        | some job =>
            let r := settleJob opts job db x
            (.ok (jobs.eraseIdx i, summary.count r.1), r.2)
      settleJobs opts n jobs' summary'

/-- The first segment of a tick: the claims, each with what is known of its
subscription. -/
def claimJobs (opts : WebhookTickOptions) (db : Db) (x : HookInput) :
    Except OpError (List Job) × HookAction × Db :=
  if x.stopped then (.ok [], .quiet, db)
  else if x.fail then (.error (.sql .other), .quiet, db)
  else
    let (claims, db') := claimDueDeliveries x.now opts.batch db
    (.ok (claims.map (fun claim => (claim, lookUpJob x db' claim))), .claimed claims, db')

/-- One pass: claim due deliveries, send them concurrently, record each result. -/
def processDueWebhooks (opts : WebhookTickOptions) : HookOp WebhookTickSummary := do
  let jobs ← hookSegment (claimJobs opts)
  settleJobs opts jobs.length jobs { claimed := jobs.length }

/-- Delete the delivered and failed rows past their retention. -/
def pruneWebhookDeliveries : HookOp Unit :=
  hookSegment fun db x =>
    if x.fail then (.error (.sql .other), .quiet, db)
    else
      (.ok (), .pruned, { db with deliveries := db.deliveries.filter (fun d =>
        ¬ (d.status ≠ .pending ∧ d.createdAt + deliveryRetentionMs < x.now)) })

end AgentFs

import AgentFs.Lib.Table
import AgentFs.Webhooks.System

/-!
# What a step does to a delivery

The steps of the webhook system from the side of the rows of `webhook_deliveries`: a step
keeps some of the rows, changes each as `RowStep` says, and may add new ones.  The
identity of a row never changes, so the primary key and the UNIQUE index of the table hold
in every state of a run.
-/

namespace AgentFs

open Async Tabular

/-! ### Keys -/

/-- The primary key of `webhook_deliveries` and its `UNIQUE(subscription_id, event_id)`. -/
structure Db.DeliveryKeys (db : Db) : Prop where
  id : Keyed DeliveryRow.id db.deliveries
  event : Keyed (fun d => (d.subscriptionId, d.eventId)) db.deliveries

/-- The columns that no statement changes. -/
structure DeliveryRow.Same (d d' : DeliveryRow) : Prop where
  id : d'.id = d.id
  subscriptionId : d'.subscriptionId = d.subscriptionId
  eventId : d'.eventId = d.eventId
  eventType : d'.eventType = d.eventType
  payload : d'.payload = d.payload
  createdAt : d'.createdAt = d.createdAt

theorem DeliveryRow.Same.refl (d : DeliveryRow) :
  d.Same d
  := ⟨rfl, rfl, rfl, rfl, rfl, rfl⟩

theorem DeliveryRow.Same.trans {d e f : DeliveryRow} (h : d.Same e) (h' : e.Same f) :
  d.Same f
  := by
  obtain ⟨h₁, h₂, h₃, h₄, h₅, h₆⟩ := h
  obtain ⟨h₁', h₂', h₃', h₄', h₅', h₆'⟩ := h'
  exact ⟨h₁'.trans h₁, h₂'.trans h₂, h₃'.trans h₃, h₄'.trans h₄, h₅'.trans h₅, h₆'.trans h₆⟩

/-- The keys hold after rows are deleted and updated. -/
theorem Db.DeliveryKeys.revise {db db' : Db} (h : db.DeliveryKeys) {p : DeliveryRow → Bool}
    {f : DeliveryRow → DeliveryRow} (hf : ∀ d ∈ db.deliveries, d.Same (f d))
    (hrows : db'.deliveries = (db.deliveries.filter p).map f) :
  db'.DeliveryKeys
  := by
  constructor
  · rw [hrows]
    exact (h.id.filter p).map (fun d hd => (hf d (List.mem_of_mem_filter hd)).id)
  · rw [hrows]
    apply (h.event.filter p).map
    intro d hd
    have hsame := hf d (List.mem_of_mem_filter hd)
    rw [hsame.subscriptionId, hsame.eventId]

/-! ### Inserting deliveries -/

/-- What inserting a row does when it does not throw: nothing, or it adds the row, whose id
and (subscription, event) are new. -/
def InsertsRow (db : Db) (row : DeliveryRow) (db' : Db) : Prop :=
  db' = db ∨
    (db'.deliveries = db.deliveries ++ [row] ∧ db'.subscriptions = db.subscriptions ∧
      ∀ d ∈ db.deliveries, d.id ≠ row.id ∧
        ¬ (d.subscriptionId = row.subscriptionId ∧ d.eventId = row.eventId))

theorem insertDelivery_inserts {db db' : Db} {row : DeliveryRow}
    (h : insertDelivery db row = .ok db') :
  db'.deliveries = db.deliveries ++ [row] ∧ db'.subscriptions = db.subscriptions ∧
    ∀ d ∈ db.deliveries, d.id ≠ row.id ∧
      ¬ (d.subscriptionId = row.subscriptionId ∧ d.eventId = row.eventId)
  := by
  unfold insertDelivery at h
  split at h
  · cases h
  · rename_i hfresh
    cases h
    refine ⟨rfl, rfl, ?_⟩
    intro d hd
    constructor
    · exact fun hid => hfresh ⟨d, hd, .inl hid⟩
    · exact fun hevent => hfresh ⟨d, hd, .inr hevent⟩

theorem insertDeliveryOrIgnore_inserts {db db' : Db} {row : DeliveryRow}
    (h : insertDeliveryOrIgnore db row = .ok db') :
  InsertsRow db row db'
  := by
  unfold insertDeliveryOrIgnore at h
  split at h
  · cases h
    exact .inl rfl
  · exact .inr (insertDelivery_inserts h)

theorem InsertsRow.keys {db db' : Db} {row : DeliveryRow} (h : InsertsRow db row db')
    (hkeys : db.DeliveryKeys) :
  db'.DeliveryKeys
  := by
  obtain rfl | ⟨hrows, -, hfresh⟩ := h
  · exact hkeys
  · constructor
    · rw [hrows]
      exact hkeys.id.concat (fun d hd => (hfresh d hd).1)
    · rw [hrows]
      apply hkeys.event.concat
      intro d hd heq
      exact (hfresh d hd).2 (Prod.mk.inj heq)

/-- Inserting rows one after the other: the new rows are among them, the subscriptions stay,
and the keys hold. -/
theorem insertAll_inserts {insert : Db → DeliveryRow → Except SqlError Db}
    (hinsert : ∀ {db row db'}, insert db row = .ok db' → InsertsRow db row db')
    {rows : List DeliveryRow} {db db' : Db} (h : insertAll insert db rows = .ok db') :
  (∃ new, db'.deliveries = db.deliveries ++ new ∧ ∀ n ∈ new, n ∈ rows) ∧
    db'.subscriptions = db.subscriptions ∧ (db.DeliveryKeys → db'.DeliveryKeys)
  := by
  induction rows generalizing db with
  | nil =>
      cases h
      exact ⟨⟨[], by simp⟩, rfl, id⟩
  | cons row rows ih =>
      obtain ⟨db₁, hrow, hrest⟩ := bind_eq_ok_iff.mp h
      obtain ⟨⟨new, hnew, hmem⟩, hsubs, hkeys⟩ := ih hrest
      have hrow := hinsert hrow
      refine ⟨?_, ?_, fun hdb => hkeys (hrow.keys hdb)⟩
      · obtain rfl | ⟨hrows, -, -⟩ := hrow
        · exact ⟨new, hnew, fun n hn => List.mem_cons_of_mem _ (hmem n hn)⟩
        · use row :: new
          constructor
          · rw [hnew, hrows, List.append_assoc, List.singleton_append]
          · intro n hn
            obtain rfl | hn := List.mem_cons.mp hn
            · exact List.mem_cons_self
            · exact List.mem_cons_of_mem _ (hmem n hn)
      · obtain rfl | ⟨-, hsubs₁, -⟩ := hrow
        · exact hsubs
        · exact hsubs.trans hsubs₁

/-- A delivery as it is enqueued, for an enabled subscription. -/
structure DeliveryRow.Fresh (db : Db) (d : DeliveryRow) : Prop where
  status : d.status = .pending
  attempts : d.attempts = 0
  leaseUntil : d.leaseUntil = none
  owner : ∃ s ∈ db.subscriptions, s.id = d.subscriptionId ∧ s.enabled = true

theorem upsertFile_hooks (ctx : OpContext) (params : VersionParams) (version now : Nat)
    (db : Db) :
  (upsertFile ctx params version now db).deliveries = db.deliveries ∧
    (upsertFile ctx params version now db).subscriptions = db.subscriptions
  := by
  unfold upsertFile
  split
  · exact ⟨rfl, rfl⟩
  · exact ⟨rfl, rfl⟩

/-- The transaction of `createVersion` from the side of the webhook tables: it runs the
outbox on them. -/
theorem createVersionTx_outbox {ctx : OpContext} {params : VersionParams} {version : Nat}
    {x : Input} {db db' : Db} (h : createVersionTx ctx params version x db = .ok db') :
  ∃ db₁, db₁.deliveries = db.deliveries ∧ db₁.subscriptions = db.subscriptions ∧
    enqueueFileWebhooks ctx params.path x db₁ = .ok db'
  := by
  unfold createVersionTx insertVersion at h
  split at h
  · cases h
  · split at h
    · cases h
    · refine ⟨_, ?_, ?_, h⟩
      · exact (upsertFile_hooks ctx params version x.now _).1
      · exact (upsertFile_hooks ctx params version x.now _).2

/-- The rows of a file change are for enabled subscriptions. -/
theorem fileDeliveries_fresh {ctx : OpContext} {path : Text} {x : Input} {db : Db}
    {d : DeliveryRow} (h : d ∈ fileDeliveries ctx path x db) :
  d.Fresh db
  := by
  obtain ⟨n, hn, rfl⟩ := List.mem_mapIdx.mp h
  refine ⟨rfl, rfl, rfl, ?_⟩
  have hid : (fileSubscribers ctx path db)[n] ∈ fileSubscribers ctx path db :=
    List.getElem_mem hn
  obtain ⟨s, hs, hsid⟩ := List.mem_map.mp hid
  have hs := List.mem_of_mem_filter hs
  have hscope := List.of_mem_filter hs
  simp only [decide_eq_true_eq] at hscope
  exact ⟨s, List.mem_of_mem_filter hs, hsid, hscope.1.2.1⟩

/-- The subscription of an entry of the work list is enabled. -/
theorem commentWork_enabled {ctx : OpContext} {events : List CommentWebhookEvent} {db : Db}
    {w : CommentWebhookEvent × WebhookEventType × Text} (h : w ∈ commentWork ctx events db) :
  ∃ s ∈ db.subscriptions, s.id = w.2.2 ∧ s.enabled = true
  := by
  obtain ⟨event, -, hw⟩ := List.mem_flatMap.mp h
  split at hw
  · simp at hw
  · obtain ⟨s, hs, rfl⟩ := List.mem_map.mp hw
    have hs := List.mem_of_mem_filter hs
    have hscope := List.of_mem_filter hs
    simp only [decide_eq_true_eq] at hscope
    exact ⟨s, List.mem_of_mem_filter hs, rfl, hscope.2.1⟩

/-- What a mutation does to the webhook tables. -/
theorem HookStep.mutated_inserts {J : HookPerms}
    {x : HookInput} {db db' : Db} {mutation : Mutation}
    (h : HookStep J x db (.mutated mutation) db') :
  (∃ new, db'.deliveries = db.deliveries ++ new ∧ ∀ n ∈ new, n.Fresh db) ∧
    db'.subscriptions = db.subscriptions ∧ (db.DeliveryKeys → db'.DeliveryKeys)
  := by
  have htransfer : ∀ {db₁ : Db} {rows : List DeliveryRow}
      {insert : Db → DeliveryRow → Except SqlError Db},
      (∀ {db row db'}, insert db row = .ok db' → InsertsRow db row db') →
      db₁.deliveries = db.deliveries → db₁.subscriptions = db.subscriptions →
      insertAll insert db₁ rows = .ok db' → (∀ d ∈ rows, d.Fresh db₁) →
      (∃ new, db'.deliveries = db.deliveries ++ new ∧ ∀ n ∈ new, n.Fresh db) ∧
        db'.subscriptions = db.subscriptions ∧ (db.DeliveryKeys → db'.DeliveryKeys) := by
    intro db₁ rows insert hinsert hrows₁ hsubs₁ hall hfresh
    obtain ⟨⟨new, hnew, hmem⟩, hsubs, hkeys⟩ := insertAll_inserts hinsert hall
    refine ⟨⟨new, by rw [hnew, hrows₁], ?_⟩, hsubs.trans hsubs₁, ?_⟩
    · intro n hn
      obtain ⟨hstatus, hattempts, hlease, s, hs, howner⟩ := hfresh n (hmem n hn)
      exact ⟨hstatus, hattempts, hlease, s, hsubs₁ ▸ hs, howner⟩
    · intro hdb
      apply hkeys
      exact ⟨by rw [hrows₁]; exact hdb.id, by rw [hrows₁]; exact hdb.event⟩
  cases h with
  | file ctx params version tx =>
      obtain ⟨db₁, hrows₁, hsubs₁, henqueue⟩ := createVersionTx_outbox tx
      exact htransfer (fun h => .inr (insertDelivery_inserts h)) hrows₁ hsubs₁ henqueue
        (fun d hd => fileDeliveries_fresh hd)
  | comment ctx path events subscriptions deliveries outbox =>
      apply htransfer insertDeliveryOrIgnore_inserts deliveries subscriptions outbox
      intro d hd
      obtain ⟨n, hn, rfl⟩ := List.mem_mapIdx.mp hd
      exact ⟨rfl, rfl, rfl, commentWork_enabled (List.getElem_mem hn)⟩

/-! ### One row -/

/-- The action disables the subscription. -/
def HookAction.Disables (id : Text) : HookAction → Prop
  | .disabled i => i = id
  | .recorded claim _ true => claim.subscriptionId = id
  | _ => False

/-- The action is about the row. -/
def HookAction.Touches (now : Nat) (d : DeliveryRow) (action : HookAction) : Prop :=
  (action.Disables d.subscriptionId ∧ d.status = .pending) ∨
    match action with
    | .redelivered id => d.id = id ∧ d.Redeliverable now
    | .claimed claims => ∃ claim ∈ claims, claim.id = d.id
    | .deferred claim _ => claim.Fences d
    | .recorded claim _ _ => claim.Fences d
    | _ => False

/-- What a step does to one row that it keeps. -/
inductive RowStep (J : HookPerms) (x : HookInput) :
    HookAction → DeliveryRow → DeliveryRow → Prop where
  | same {action : HookAction} {d : DeliveryRow} (untouched : ¬ action.Touches x.now d) :
      RowStep J x action d d
  | leased {claims : List ClaimedDelivery} {d : DeliveryRow}
      (claimed : (d.leased x.now).toClaim (x.now + leaseMs) ∈ claims)
      (pending : d.status = .pending) : RowStep J x (.claimed claims) d (d.leased x.now)
  | requeued {d : DeliveryRow} (redeliverable : d.Redeliverable x.now) :
      RowStep J x (.redelivered d.id) d (d.requeue x.now)
  | disabled {action : HookAction} {d : DeliveryRow}
      (disables : action.Disables d.subscriptionId) (pending : d.status = .pending) :
      RowStep J x action d d.failDisabled
  | deferred {claim : ClaimedDelivery} {d d' : DeliveryRow} (fences : claim.Fences d)
      (columns : d.Same d') (attempts : d'.attempts = d.attempts - 1)
      (status : d'.status = .pending) (lease : d'.leaseUntil = none) :
      RowStep J x (.deferred claim (some .deferred)) d d'
  /-- The row of a recorded claim.  It is pending afterwards when the result is to be
  retried or was cut short, unless its subscription is disabled. -/
  | recorded {claim : ClaimedDelivery} {outcome : Outcome} {disabled : Bool}
      {d d' : DeliveryRow} (fences : claim.Fences d) (columns : d.Same d')
      (attempts : d'.attempts = d.attempts) (lease : d'.leaseUntil = none)
      (status : d'.status = .pending → ¬ (disabled = true ∧ d.subscriptionId = claim.subscriptionId)) :
      RowStep J x (.recorded claim (some outcome) disabled) d d'

theorem RowStep.columns {J : HookPerms} {x : HookInput}
    {action : HookAction} {d d' : DeliveryRow} (h : RowStep J x action d d') :
  d.Same d'
  := by
  cases h with
  | same => exact .refl d
  | leased => exact ⟨rfl, rfl, rfl, rfl, rfl, rfl⟩
  | requeued => exact ⟨rfl, rfl, rfl, rfl, rfl, rfl⟩
  | disabled => exact ⟨rfl, rfl, rfl, rfl, rfl, rfl⟩
  | deferred fences columns => exact columns
  | recorded fences columns => exact columns

/-! ### The settling statements -/

/-- A fenced update changes exactly the fenced rows. -/
theorem updateFenced_cases (claim : ClaimedDelivery) (g : DeliveryRow → DeliveryRow) (db : Db) :
  (updateFenced claim g db = none ∧ ∀ d ∈ db.deliveries, ¬ claim.Fences d) ∨
    updateFenced claim g db = some { db with
      deliveries := db.deliveries.map (fun d => if claim.Fences d then g d else d) }
  := by
  unfold updateFenced
  split
  · exact .inr rfl
  · rename_i hfence
    refine .inl ⟨rfl, ?_⟩
    intro d hd hfences
    exact hfence ⟨d, hd, hfences⟩

/-- A step that leaves the rows and the subscriptions but for a fenced change. -/
structure Settling (claim : ClaimedDelivery) (db : Db) (disabled : Bool) (db' : Db)
    (g : DeliveryRow → DeliveryRow) (u : SubscriptionRow → SubscriptionRow) : Prop where
  deliveries : db'.deliveries = db.deliveries.map (fun d =>
    let d₁ := if claim.Fences d then g d else d
    if disabled = true ∧ d₁.subscriptionId = claim.subscriptionId ∧ d₁.status = .pending then
      d₁.failDisabled
    else d₁)
  subscriptions : db'.subscriptions =
    db.subscriptions.map (fun s => if s.id = claim.subscriptionId then u s else s)
  columns : ∀ d : DeliveryRow, d.Same (g d)
  lease : ∀ d, (g d).leaseUntil = none
  id : ∀ s, (u s).id = s.id
  /-- The subscription is disabled, or stays as it was. -/
  enabled : ∀ s, (u s).enabled = (!disabled && s.enabled)
  /-- A subscription that counts its failures keeps counting them. -/
  failing : ∀ s, (s.failingSince = none ↔ s.consecutiveFailures = 0) →
    ((u s).failingSince = none ↔ (u s).consecutiveFailures = 0)

/-- A fenced change that leaves the subscriptions enabled. -/
theorem Settling.of_update {claim : ClaimedDelivery} {db : Db} {g : DeliveryRow → DeliveryRow}
    {u : SubscriptionRow → SubscriptionRow} (hcolumns : ∀ d : DeliveryRow, d.Same (g d))
    (hlease : ∀ d, (g d).leaseUntil = none) (hid : ∀ s, (u s).id = s.id)
    (henabled : ∀ s, (u s).enabled = s.enabled)
    (hfailing : ∀ s, (s.failingSince = none ↔ s.consecutiveFailures = 0) →
      ((u s).failingSince = none ↔ (u s).consecutiveFailures = 0)) :
  Settling claim db false (updateSubscription claim.subscriptionId u { db with
    deliveries := db.deliveries.map (fun d => if claim.Fences d then g d else d) }) g u
  := by
  refine ⟨?_, rfl, hcolumns, hlease, hid, ?_, hfailing⟩
  · simp [updateSubscription]
  · simpa using henabled

/-- A fenced change that disables the subscription. -/
theorem Settling.of_disable {claim : ClaimedDelivery} {db : Db} {g : DeliveryRow → DeliveryRow}
    {u : SubscriptionRow → SubscriptionRow} (reason : DisabledReason) (now : Nat)
    (hcolumns : ∀ d : DeliveryRow, d.Same (g d)) (hlease : ∀ d, (g d).leaseUntil = none)
    (hid : ∀ s, (u s).id = s.id)
    (hfailing : ∀ s, (s.failingSince = none ↔ s.consecutiveFailures = 0) →
      ((u s).failingSince = none ↔ (u s).consecutiveFailures = 0)) :
  Settling claim db true (disableSubscription claim.subscriptionId reason now
      (updateSubscription claim.subscriptionId u { db with
        deliveries := db.deliveries.map (fun d => if claim.Fences d then g d else d) }))
    g (fun s => (u s).disable reason now)
  := by
  refine ⟨?_, ?_, hcolumns, hlease, hid, ?_, hfailing⟩
  · simp only [disableSubscription, updateSubscription, List.map_map]
    apply List.map_congr_left
    intro d _
    simp
  · simp only [disableSubscription, updateSubscription, List.map_map]
    apply List.map_congr_left
    intro s _
    simp only [Function.comp]
    by_cases hs : s.id = claim.subscriptionId
    · simp [hs, hid]
    · simp [hs]
  · intro s
    rfl

/-- What recording a result does: nothing when the fence does not hold, else a fenced
change.  An attempt is retried only while the schedule has a delay for it. -/
theorem recordResult_cases (opts : WebhookTickOptions) (claim : ClaimedDelivery)
    (x : HookInput) (db : Db) :
  (recordResult opts claim x db = ⟨none, false, db⟩ ∧ ∀ d ∈ db.deliveries, ¬ claim.Fences d) ∨
    ∃ outcome g u, (recordResult opts claim x db).outcome = some outcome ∧
      Settling claim db (recordResult opts claim x db).disabled (recordResult opts claim x db).db
        g u ∧
      (∀ d, (g d).attempts = d.attempts) ∧
      (outcome = .retrying → claim.attempts ≤ opts.schedule.length)
  := by
  unfold recordResult
  dsimp only
  split
  · obtain ⟨hnone, hfence⟩ | hsome := updateFenced_cases claim (fun d =>
      { d with
        status := .delivered
        deliveredAt := some x.now
        lastStatusCode := x.result.statusCode
        lastError := none
        leaseUntil := none }) db
    · rw [hnone]
      exact .inl ⟨rfl, hfence⟩
    · rw [hsome]
      refine .inr ⟨.delivered, _, _, rfl, Settling.of_update ?_ ?_ ?_ ?_ ?_, fun _ => rfl, ?_⟩
      · exact fun d => ⟨rfl, rfl, rfl, rfl, rfl, rfl⟩
      · exact fun d => rfl
      · exact fun s => rfl
      · exact fun s => rfl
      · exact fun s _ => by simp
      · exact fun h => by cases h
  · split
    · obtain ⟨hnone, hfence⟩ | hsome := updateFenced_cases claim
        (fun d => { d with leaseUntil := none }) db
      · rw [hnone]
        exact .inl ⟨rfl, hfence⟩
      · rw [hsome]
        refine .inr ⟨.released, (fun d => { d with leaseUntil := none }), id, rfl, ?_,
          fun _ => rfl, ?_⟩
        · refine ⟨?_, ?_, ?_, ?_, ?_, ?_, ?_⟩
          · simp
          · simp
          · exact fun d => ⟨rfl, rfl, rfl, rfl, rfl, rfl⟩
          · exact fun d => rfl
          · exact fun s => rfl
          · exact fun s => by simp
          · exact fun s h => h
        · exact fun h => by cases h
    · split
      · obtain ⟨hnone, hfence⟩ | hsome := updateFenced_cases claim (fun d =>
          { d with
            status := .failed
            lastStatusCode := some 410
            lastError := some "410 Gone: subscription disabled".toList
            leaseUntil := none }) db
        · rw [hnone]
          exact .inl ⟨rfl, hfence⟩
        · rw [hsome]
          refine .inr ⟨.failed, _, _, rfl, Settling.of_disable .gone x.now ?_ ?_ ?_ ?_,
            fun _ => rfl, ?_⟩
          · exact fun d => ⟨rfl, rfl, rfl, rfl, rfl, rfl⟩
          · exact fun d => rfl
          · exact fun s => rfl
          · exact fun s h => h
          · exact fun h => by cases h
      · have hretrying : (if claim.attempts - 1 < opts.schedule.length then Outcome.retrying
            else .failed) = .retrying → claim.attempts ≤ opts.schedule.length := by
          split
          · intro _
            omega
          · simp
        generalize (if claim.attempts - 1 < opts.schedule.length then Outcome.retrying
          else .failed) = outcome at hretrying
        obtain ⟨hnone, hfence⟩ | hsome := updateFenced_cases claim
          (·.attemptFailed outcome x.result
            (x.now + x.jitter ((opts.schedule[(claim.attempts - 1).toNat]?).getD 0))) db
        · rw [hnone]
          exact .inl ⟨rfl, hfence⟩
        · rw [hsome]
          have hcolumns : ∀ (outcome : Outcome) (next : Nat) (d : DeliveryRow),
              d.Same (d.attemptFailed outcome x.result next) ∧
                (d.attemptFailed outcome x.result next).leaseUntil = none ∧
                (d.attemptFailed outcome x.result next).attempts = d.attempts := by
            intro outcome next d
            unfold DeliveryRow.attemptFailed
            split
            · exact ⟨⟨rfl, rfl, rfl, rfl, rfl, rfl⟩, rfl, rfl⟩
            · exact ⟨⟨rfl, rfl, rfl, rfl, rfl, rfl⟩, rfl, rfl⟩
          dsimp only
          split
          · refine .inr ⟨.failed, _, _, rfl, Settling.of_disable .failing x.now ?_ ?_ ?_ ?_,
              fun d => (hcolumns _ _ d).2.2, ?_⟩
            · exact fun d => (hcolumns _ _ d).1
            · exact fun d => (hcolumns _ _ d).2.1
            · exact fun s => rfl
            · exact fun s _ => by simp [SubscriptionRow.countFailure]
            · exact fun h => by cases h
          · refine .inr ⟨outcome, _, _, rfl, Settling.of_update ?_ ?_ ?_ ?_ ?_,
              fun d => (hcolumns _ _ d).2.2, hretrying⟩
            · exact fun d => (hcolumns _ _ d).1
            · exact fun d => (hcolumns _ _ d).2.1
            · exact fun s => rfl
            · exact fun s => rfl
            · exact fun s _ => by simp [SubscriptionRow.countFailure]

/-! ### The steps, row by row -/

section

variable {J : HookPerms} {x : HookInput} {db db' : Db}
  {action : HookAction}

/-- The claims of `claimDueDeliveries`, and the rows it leaves. -/
theorem claimDueDeliveries_row (hkeys : db.DeliveryKeys) (now batch : Nat) {d : DeliveryRow}
    (hd : d ∈ db.deliveries) :
  if d.id ∈ dueIds now batch db then
    (d.leased now).toClaim (now + leaseMs) ∈ (claimDueDeliveries now batch db).1 ∧
      d.status = .pending ∧ ∀ lease ∈ d.leaseUntil, lease < now
  else ∀ claim ∈ (claimDueDeliveries now batch db).1, claim.id ≠ d.id
  := by
  split
  · rename_i hid
    constructor
    · apply List.mem_map_of_mem
      apply List.mem_map_of_mem
      simpa using ⟨hd, hid⟩
    · obtain ⟨e, he, heid⟩ := List.mem_map.mp hid
      have he := (List.mem_insertionSort _).mp (List.mem_of_mem_take he)
      have hdue := List.of_mem_filter he
      simp only [decide_eq_true_eq] at hdue
      obtain rfl := hkeys.id.eq_of_mem (List.mem_of_mem_filter he) hd heid
      exact ⟨hdue.1, hdue.2.2.1⟩
  · rename_i hid
    intro claim hclaim heq
    obtain ⟨e, he, rfl⟩ := List.mem_map.mp hclaim
    obtain ⟨e', he', rfl⟩ := List.mem_map.mp he
    have hmem := List.of_mem_filter he'
    simp only [decide_eq_true_eq] at hmem
    apply hid
    rw [← heq]
    exact hmem

/-- The row of a settled claim. -/
theorem Settling.row {claim : ClaimedDelivery} {disabled : Bool} {g : DeliveryRow → DeliveryRow}
    {u : SubscriptionRow → SubscriptionRow} (h : Settling claim db disabled db' g u)
    (hattempts : ∀ d, (g d).attempts = d.attempts) (outcome : Outcome) (d : DeliveryRow) :
  RowStep J x (.recorded claim (some outcome) disabled) d
    (let d₁ := if claim.Fences d then g d else d
    if disabled = true ∧ d₁.subscriptionId = claim.subscriptionId ∧ d₁.status = .pending then
      d₁.failDisabled
    else d₁)
  := by
  by_cases hfences : claim.Fences d
  · simp only [hfences, if_true]
    have hcolumns := h.columns d
    split
    · refine .recorded hfences ?_ (hattempts d) rfl (fun hstatus => by cases hstatus)
      exact hcolumns.trans ⟨rfl, rfl, rfl, rfl, rfl, rfl⟩
    · rename_i hnot
      refine .recorded hfences hcolumns (hattempts d) (h.lease d) ?_
      rintro hpending ⟨hdisabled, howner⟩
      exact hnot ⟨hdisabled, hcolumns.subscriptionId.trans howner, hpending⟩
  · simp only [hfences, if_false]
    split
    · rename_i hdisabled
      obtain ⟨rfl, howner, hpending⟩ := hdisabled
      exact .disabled howner.symm hpending
    · rename_i hnot
      refine .same ?_
      rintro (⟨hdisables, hpending⟩ | hfence)
      · cases disabled with
        | false => exact hdisables
        | true => exact hnot ⟨rfl, hdisables.symm, hpending⟩
      · exact hfences hfence

/-- The step keeps some of the rows, changes each of them as `RowStep` says, and may add
rows for enabled subscriptions when it is a mutation. -/
def RevisesRows (J : HookPerms) (x : HookInput) (db : Db)
    (action : HookAction) (db' : Db) : Prop :=
  ∃ (p : DeliveryRow → Bool) (f : DeliveryRow → DeliveryRow) (new : List DeliveryRow),
    db'.deliveries = (db.deliveries.filter p).map f ++ new ∧
      (∀ d ∈ db.deliveries, RowStep J x action d (f d)) ∧
      ∀ n ∈ new, n.Fresh db ∧ ∃ mutation, action = .mutated mutation

theorem RevisesRows.of_map {f : DeliveryRow → DeliveryRow}
    (hrows : db'.deliveries = db.deliveries.map f)
    (hsteps : ∀ d ∈ db.deliveries, RowStep J x action d (f d)) :
  RevisesRows J x db action db'
  := ⟨fun _ => true, f, [], by simpa using hrows, hsteps, by simp⟩

theorem RevisesRows.of_filter {p : DeliveryRow → Bool}
    (hrows : db'.deliveries = db.deliveries.filter p)
    (huntouched : ∀ d ∈ db.deliveries, ¬ action.Touches x.now d) :
  RevisesRows J x db action db'
  := ⟨p, id, [], by simpa using hrows, fun d hd => .same (huntouched d hd), by simp⟩

theorem RevisesRows.of_same (hrows : db'.deliveries = db.deliveries)
    (huntouched : ∀ d ∈ db.deliveries, ¬ action.Touches x.now d) :
  RevisesRows J x db action db'
  := of_filter (p := fun _ => true) (by simpa using hrows) huntouched

/-- A mutation touches no row that is there. -/
theorem RevisesRows.of_mutated {mutation : Mutation}
    (h : HookStep J x db (.mutated mutation) db') :
  RevisesRows J x db (.mutated mutation) db'
  := by
  obtain ⟨⟨new, hnew, hfresh⟩, -, -⟩ := h.mutated_inserts
  refine ⟨fun _ => true, id, new, by simpa using hnew, ?_, fun n hn => ⟨hfresh n hn, _, rfl⟩⟩
  exact fun d _ => .same (by simp [HookAction.Touches, HookAction.Disables])

/-- A claim whose fence holds nowhere touches nothing. -/
theorem not_touches_of_not_fences {claim : ClaimedDelivery}
    (hfence : ∀ d ∈ db.deliveries, ¬ claim.Fences d)
    (haction : ∀ d, action.Touches x.now d → claim.Fences d) :
  ∀ d ∈ db.deliveries, ¬ action.Touches x.now d
  := fun d hd htouches => hfence d hd (haction d htouches)

theorem HookStep.rows (h : HookStep J x db action db') (hkeys : db.DeliveryKeys) :
  RevisesRows J x db action db'
  := by
  cases h with
  | quiet subscriptions deliveries =>
      exact .of_same deliveries (fun d _ => by simp [HookAction.Touches, HookAction.Disables])
  | file ctx params version tx => exact .of_mutated (.file ctx params version tx)
  | comment ctx path events subscriptions deliveries outbox =>
      exact .of_mutated (.comment ctx path events subscriptions deliveries outbox)
  | rolledBack => exact .of_same rfl (fun d _ => by simp [HookAction.Touches, HookAction.Disables])
  | created ctx params pathPrefix insert =>
      refine .of_same ?_ (fun d _ => by simp [HookAction.Touches, HookAction.Disables])
      unfold insertSubscription at insert
      split at insert
      · cases insert
      · cases insert
        rfl
  | lookedUp row found =>
      exact .of_same rfl (fun d _ => by simp [HookAction.Touches, HookAction.Disables])
  | updated params pathPrefix row awaited keeps found =>
      exact .of_same rfl (fun d _ => by simp [HookAction.Touches, HookAction.Disables])
  | disabled params pathPrefix row disables =>
      apply RevisesRows.of_map rfl
      intro d _
      split
      · rename_i hd
        exact .disabled hd.1.symm hd.2
      · rename_i hd
        apply RowStep.same
        rintro (⟨hid, hpending⟩ | hfalse)
        · exact hd ⟨hid.symm, hpending⟩
        · exact hfalse
  | deleted id =>
      exact .of_filter rfl (fun d _ => by simp [HookAction.Touches, HookAction.Disables])
  | redelivered d s delivery subscription owner enabled redeliverable =>
      apply RevisesRows.of_map rfl
      intro e _
      split
      · rename_i he
        rw [← he.1]
        exact .requeued he.2
      · rename_i he
        apply RowStep.same
        rintro (⟨hfalse, -⟩ | htouched)
        · exact hfalse
        · exact he htouched
  | claimed batch =>
      apply RevisesRows.of_map rfl
      intro d hd
      have hrow := claimDueDeliveries_row hkeys x.now batch hd
      split
      · rename_i hid
        rw [if_pos hid] at hrow
        exact .leased hrow.1 hrow.2.1
      · rename_i hid
        rw [if_neg hid] at hrow
        apply RowStep.same
        rintro (⟨hfalse, -⟩ | ⟨claim, hclaim, heq⟩)
        · exact hfalse
        · exact hrow claim hclaim heq
  | deferred opts claim error job =>
      unfold deferClaim
      obtain ⟨hnone, hfence⟩ | hsome := updateFenced_cases claim (fun d =>
        { d with
          attempts := d.attempts - 1
          nextAttemptAt := x.now + serverErrorRetryMs
          leaseUntil := none
          lastError := some error }) db
      · simp only [hnone]
        refine .of_same rfl (not_touches_of_not_fences hfence ?_)
        rintro d (⟨hfalse, -⟩ | hfences)
        · exact hfalse.elim
        · exact hfences
      · simp only [hsome]
        apply RevisesRows.of_map rfl
        intro d hd
        split
        · rename_i hfences
          exact .deferred hfences ⟨rfl, rfl, rfl, rfl, rfl, rfl⟩ rfl hfences.2.1 rfl
        · rename_i hfences
          apply RowStep.same
          rintro (⟨hfalse, -⟩ | hfences')
          · exact hfalse
          · exact hfences hfences'
  | recorded opts claim job =>
      obtain ⟨hnone, hfence⟩ | ⟨outcome, g, u, houtcome, hsettling, hattempts, -⟩ :=
        recordResult_cases opts claim x db
      · rw [hnone]
        refine .of_same rfl (not_touches_of_not_fences hfence ?_)
        rintro d (⟨hfalse, -⟩ | hfences)
        · exact hfalse.elim
        · exact hfences
      · apply RevisesRows.of_map hsettling.deliveries
        intro d _
        rw [houtcome]
        exact hsettling.row hattempts outcome d
  | pruned => exact .of_filter rfl (fun d _ => by simp [HookAction.Touches, HookAction.Disables])

/-- Where a row after a step comes from. -/
theorem HookStep.row_cases (h : HookStep J x db action db') (hkeys : db.DeliveryKeys)
    {d' : DeliveryRow} (hd' : d' ∈ db'.deliveries) :
  (∃ d ∈ db.deliveries, RowStep J x action d d') ∨
    (d'.Fresh db ∧ ∃ mutation, action = .mutated mutation)
  := by
  obtain ⟨p, f, new, hrows, hsteps, hfresh⟩ := h.rows hkeys
  rw [hrows] at hd'
  obtain hold | hnew := List.mem_append.mp hd'
  · obtain ⟨d, hd, rfl⟩ := List.mem_map.mp hold
    have hd := List.mem_of_mem_filter hd
    exact .inl ⟨d, hd, hsteps d hd⟩
  · exact .inr (hfresh d' hnew)

/-- The keys of the table hold after every step. -/
theorem HookStep.keys (h : HookStep J x db action db') (hkeys : db.DeliveryKeys) :
  db'.DeliveryKeys
  := by
  by_cases hmutated : ∃ mutation, action = .mutated mutation
  · obtain ⟨mutation, rfl⟩ := hmutated
    exact h.mutated_inserts.2.2 hkeys
  · obtain ⟨p, f, new, hrows, hsteps, hfresh⟩ := h.rows hkeys
    have hnew : new = [] := by
      apply List.eq_nil_iff_forall_not_mem.mpr
      intro n hn
      exact hmutated (hfresh n hn).2
    rw [hnew, List.append_nil] at hrows
    exact hkeys.revise (fun d hd => (hsteps d hd).columns) hrows

end

end AgentFs

import AgentFs.Webhooks.Rows

/-!
# No delivery is stranded

Every pending delivery belongs to an enabled subscription, so that the worker will claim
it, and a subscription counts failures exactly while it is failing.  Both hold in every
state of every run.
-/

namespace AgentFs

open Async Tabular

/-- The invariant of the webhook tables. -/
structure HookInv (db : Db) : Prop where
  keys : db.DeliveryKeys
  subscriptionKey : Keyed SubscriptionRow.id db.subscriptions
  owned : ∀ d ∈ db.deliveries, d.status = .pending →
    ∃ s ∈ db.subscriptions, s.id = d.subscriptionId ∧ s.enabled = true
  failing : ∀ s ∈ db.subscriptions, s.failingSince = none ↔ s.consecutiveFailures = 0

theorem hookInv_empty :
  HookInv Db.empty
  := by
  refine ⟨⟨keyed_nil, keyed_nil⟩, keyed_nil, ?_, ?_⟩
  · simp [Db.empty]
  · simp [Db.empty]

/-! ### Subscriptions -/

theorem insertSubscription_ok {row : SubscriptionRow} {db db' : Db}
    (h : insertSubscription row db = .ok db') :
  db' = { db with subscriptions := db.subscriptions ++ [row] } ∧
    ∀ s ∈ db.subscriptions, s.id ≠ row.id
  := by
  unfold insertSubscription at h
  split at h
  · cases h
  · rename_i hfresh
    cases h
    exact ⟨rfl, fun s hs hid => hfresh ⟨s, hs, hid⟩⟩

theorem updatedSubscription_id (params : WebhookUpdateParams) (pathPrefix : Option (Option Text))
    (x : HookInput) (s : SubscriptionRow) :
  (updatedSubscription params pathPrefix x s).id = s.id
  := by
  unfold updatedSubscription
  dsimp only
  split
  · rfl
  · rfl

/-- An update enables the subscription when it is asked to, and else leaves it as it is. -/
theorem updatedSubscription_enabled (params : WebhookUpdateParams)
    (pathPrefix : Option (Option Text)) (x : HookInput) (s : SubscriptionRow) :
  (updatedSubscription params pathPrefix x s).enabled =
    (decide (params.enabled = some true) || s.enabled)
  := by
  unfold updatedSubscription
  dsimp only
  split
  · rename_i h
    simp [h]
  · rename_i h
    simp [h]

theorem updatedSubscription_failing (params : WebhookUpdateParams)
    (pathPrefix : Option (Option Text)) (x : HookInput) {s : SubscriptionRow}
    (h : s.failingSince = none ↔ s.consecutiveFailures = 0) :
  (updatedSubscription params pathPrefix x s).failingSince = none ↔
    (updatedSubscription params pathPrefix x s).consecutiveFailures = 0
  := by
  unfold updatedSubscription
  dsimp only
  split
  · simp
  · exact h

section

variable {J : HookPerms} {x : HookInput} {db db' : Db}
  {action : HookAction}

/-- What a step does to one subscription that it keeps.  It is enabled when it was, unless
the step disables or enables it; and it keeps counting failures. -/
structure SubscriptionStep (action : HookAction) (s s' : SubscriptionRow) : Prop where
  id : s'.id = s.id
  enabled : s'.enabled = s.enabled ∨ (s'.enabled = false ∧ action.Disables s.id) ∨
    (s'.enabled = true ∧ ∃ awaited, action = .updated s.id (some true) awaited)
  failing : (s.failingSince = none ↔ s.consecutiveFailures = 0) →
    (s'.failingSince = none ↔ s'.consecutiveFailures = 0)

theorem SubscriptionStep.same (s : SubscriptionRow) :
  SubscriptionStep action s s
  := ⟨rfl, .inl rfl, fun h => h⟩

/-- The step keeps the subscriptions it does not delete, changes each of them as
`SubscriptionStep` says, and may create one under a new id. -/
def RevisesSubscriptions (x : HookInput) (db : Db) (action : HookAction) (db' : Db) : Prop :=
  ∃ (p : SubscriptionRow → Bool) (f : SubscriptionRow → SubscriptionRow)
    (new : List SubscriptionRow),
    db'.subscriptions = (db.subscriptions.filter p).map f ++ new ∧
      (∀ s ∈ db.subscriptions, SubscriptionStep action s (f s)) ∧
      (∀ s ∈ db.subscriptions, p s = false → action = .deleted s.id) ∧
      (new = [] ∨ ∃ ctx params pathPrefix, new = [newSubscription ctx params pathPrefix x] ∧
        action = .created (newSubscription ctx params pathPrefix x).id ∧
        ∀ s ∈ db.subscriptions, s.id ≠ (newSubscription ctx params pathPrefix x).id)

theorem RevisesSubscriptions.of_map {f : SubscriptionRow → SubscriptionRow}
    (hrows : db'.subscriptions = db.subscriptions.map f)
    (hsteps : ∀ s ∈ db.subscriptions, SubscriptionStep action s (f s)) :
  RevisesSubscriptions x db action db'
  := ⟨fun _ => true, f, [], by simpa using hrows, hsteps, by simp, .inl rfl⟩

theorem RevisesSubscriptions.of_same (hrows : db'.subscriptions = db.subscriptions) :
  RevisesSubscriptions x db action db'
  := of_map (f := id) (by simpa using hrows) (fun s _ => .same s)

theorem updatedSubscription_step (params : WebhookUpdateParams)
    (pathPrefix : Option (Option Text)) (x : HookInput) (s : SubscriptionRow) (awaited : Bool) :
  SubscriptionStep (.updated s.id params.enabled awaited) s
    (updatedSubscription params pathPrefix x s)
  := by
  refine ⟨updatedSubscription_id _ _ _ _, ?_, updatedSubscription_failing _ _ _⟩
  by_cases henabled : params.enabled = some true
  · refine .inr (.inr ⟨?_, awaited, by rw [henabled]⟩)
    rw [updatedSubscription_enabled]
    simp [henabled]
  · left
    rw [updatedSubscription_enabled]
    simp [henabled]

theorem deferClaim_subscriptions (claim : ClaimedDelivery) (error : Text) (now : Nat) (db : Db) :
  (deferClaim claim error now db).2.subscriptions = db.subscriptions
  := by
  unfold deferClaim
  obtain ⟨hnone, -⟩ | hsome := updateFenced_cases claim (fun d =>
    { d with
      attempts := d.attempts - 1
      nextAttemptAt := now + serverErrorRetryMs
      leaseUntil := none
      lastError := some error }) db
  · rw [hnone]
  · rw [hsome]

theorem HookStep.subscriptions (h : HookStep J x db action db') :
  RevisesSubscriptions x db action db'
  := by
  cases h with
  | quiet subscriptions deliveries => exact .of_same subscriptions
  | file ctx params version tx =>
      exact .of_same (HookStep.file (J := J) ctx params version tx).mutated_inserts.2.1
  | comment ctx path events subscriptions deliveries outbox =>
      exact .of_same (HookStep.comment (J := J) ctx path events subscriptions deliveries
        outbox).mutated_inserts.2.1
  | rolledBack => exact .of_same rfl
  | created ctx params pathPrefix insert =>
      obtain ⟨rfl, hfresh⟩ := insertSubscription_ok insert
      refine ⟨fun _ => true, id, _, by simp, fun s _ => .same s, by simp,
        .inr ⟨ctx, params, pathPrefix, rfl, rfl, hfresh⟩⟩
  | lookedUp row found => exact .of_same rfl
  | updated params pathPrefix row awaited keeps found =>
      apply RevisesSubscriptions.of_map rfl
      intro s _
      split
      · rename_i hid
        rw [← hid]
        exact updatedSubscription_step _ _ _ _ _
      · exact .same s
  | disabled params pathPrefix row disables =>
      apply RevisesSubscriptions.of_map (List.map_map ..)
      intro s _
      by_cases hid : s.id = row.id
      · simp only [Function.comp, hid, if_true, updatedSubscription_id]
        refine ⟨updatedSubscription_id _ _ _ _, .inr (.inl ⟨rfl, hid.symm⟩), ?_⟩
        exact updatedSubscription_failing _ _ _
      · simp only [Function.comp, hid, if_false]
        exact .same s
  | deleted id =>
      refine ⟨fun s => s.id ≠ id, fun s => s, [], by simp [deleteSubscription],
        fun s _ => .same s, ?_, .inl rfl⟩
      intro s _ hs
      simp only [ne_eq, decide_eq_false_iff_not, not_not] at hs
      rw [hs]
  | redelivered d s delivery subscription owner enabled redeliverable => exact .of_same rfl
  | claimed batch => exact .of_same rfl
  | deferred opts claim error job => exact .of_same (deferClaim_subscriptions _ _ _ _)
  | recorded opts claim job =>
      obtain ⟨hnone, -⟩ | ⟨outcome, g, u, houtcome, hsettling, -, -⟩ :=
        recordResult_cases opts claim x db
      · exact .of_same (by rw [hnone])
      · apply RevisesSubscriptions.of_map hsettling.subscriptions
        intro s _
        split
        · rename_i hid
          refine ⟨hsettling.id s, ?_, hsettling.failing s⟩
          rw [hsettling.enabled]
          cases hdisabled : (recordResult opts claim x db).disabled with
          | false => simp
          | true => exact .inr (.inl ⟨rfl, hid.symm⟩)
        · exact .same s
  | pruned => exact .of_same rfl

/-- The primary key of `webhook_subscriptions` holds after every step. -/
theorem HookStep.subscriptionKey (h : HookStep J x db action db')
    (hkey : Keyed SubscriptionRow.id db.subscriptions) :
  Keyed SubscriptionRow.id db'.subscriptions
  := by
  obtain ⟨p, f, new, hrows, hsteps, -, hnew⟩ := h.subscriptions
  have hkept : Keyed SubscriptionRow.id ((db.subscriptions.filter p).map f) :=
    (hkey.filter p).map (fun s hs => (hsteps s (List.mem_of_mem_filter hs)).id)
  rw [hrows]
  obtain rfl | ⟨ctx, params, pathPrefix, rfl, -, hfresh⟩ := hnew
  · rw [List.append_nil]
    exact hkept
  · apply hkept.concat
    intro s' hs'
    obtain ⟨s, hs, rfl⟩ := List.mem_map.mp hs'
    have hs := List.mem_of_mem_filter hs
    rw [(hsteps s hs).id]
    exact hfresh s hs

/-- A subscription stays, under its id, through every step that does not delete it. -/
theorem HookStep.subscription_stays (h : HookStep J x db action db') {s : SubscriptionRow}
    (hs : s ∈ db.subscriptions) (hdeleted : action ≠ .deleted s.id) :
  ∃ s' ∈ db'.subscriptions, SubscriptionStep action s s'
  := by
  obtain ⟨p, f, new, hrows, hsteps, hkept, -⟩ := h.subscriptions
  refine ⟨f s, ?_, hsteps s hs⟩
  rw [hrows]
  apply List.mem_append_left
  apply List.mem_map_of_mem
  rw [List.mem_filter]
  refine ⟨hs, ?_⟩
  by_contra hp
  exact hdeleted (hkept s hs (by simpa using hp))

/-- Where a subscription after a step comes from. -/
theorem HookStep.subscription_cases (h : HookStep J x db action db') {s' : SubscriptionRow}
    (hs' : s' ∈ db'.subscriptions) :
  (∃ s ∈ db.subscriptions, SubscriptionStep action s s') ∨
    (∃ ctx params pathPrefix, s' = newSubscription ctx params pathPrefix x) ∧
      action = .created s'.id
  := by
  obtain ⟨p, f, new, hrows, hsteps, -, hnew⟩ := h.subscriptions
  rw [hrows] at hs'
  obtain hold | hmem := List.mem_append.mp hs'
  · obtain ⟨s, hs, rfl⟩ := List.mem_map.mp hold
    have hs := List.mem_of_mem_filter hs
    exact .inl ⟨s, hs, hsteps s hs⟩
  · obtain rfl | ⟨ctx, params, pathPrefix, rfl, haction, -⟩ := hnew
    · cases hmem
    · obtain rfl := List.mem_singleton.mp hmem
      exact .inr ⟨⟨ctx, params, pathPrefix, rfl⟩, haction⟩

/-! ### Pending rows -/

/-- The deliveries of a deleted subscription go with it. -/
theorem HookStep.deleted_rows {id : Text} (h : HookStep J x db (.deleted id) db')
    {d : DeliveryRow} (hd : d ∈ db'.deliveries) :
  d.subscriptionId ≠ id
  := by
  cases h with
  | deleted id =>
      have hne := List.of_mem_filter hd
      simpa using hne

/-- The subscription of a redelivered row is enabled. -/
theorem HookStep.redelivered_owner {id : Text} (h : HookStep J x db (.redelivered id) db')
    (hkeys : db.DeliveryKeys) {d : DeliveryRow} (hd : d ∈ db.deliveries) (hid : d.id = id) :
  ∃ s ∈ db.subscriptions, s.id = d.subscriptionId ∧ s.enabled = true
  := by
  cases h with
  | redelivered e s delivery subscription owner enabled redeliverable =>
      obtain rfl := hkeys.id.eq_of_mem hd delivery hid
      exact ⟨s, subscription, owner, enabled⟩

/-- A row that is pending after a step comes from a row whose subscription was enabled and
that the step does not disable, or is new. -/
theorem HookStep.pending_row (h : HookStep J x db action db') (hinv : HookInv db)
    {d' : DeliveryRow} (hd' : d' ∈ db'.deliveries) (hpending : d'.status = .pending) :
  (∃ s ∈ db.subscriptions, s.id = d'.subscriptionId ∧ s.enabled = true) ∧
    ¬ action.Disables d'.subscriptionId
  := by
  obtain ⟨d, hd, hstep⟩ | ⟨hfresh, mutation, rfl⟩ := h.row_cases hinv.keys hd'
  · have howner := hstep.columns.subscriptionId
    rw [howner]
    cases hstep with
    | same untouched =>
        exact ⟨hinv.owned _ hd hpending, fun hdisables => untouched (.inl ⟨hdisables, hpending⟩)⟩
    | leased claimed pending => exact ⟨hinv.owned d hd pending, id⟩
    | requeued redeliverable => exact ⟨h.redelivered_owner hinv.keys hd rfl, id⟩
    | disabled disables pending => cases hpending
    | deferred fences columns attempts status lease => exact ⟨hinv.owned d hd fences.2.1, id⟩
    | @recorded claim outcome disabled _ _ fences columns attempts lease status =>
        refine ⟨hinv.owned _ hd fences.2.1, ?_⟩
        intro hdisables
        cases disabled with
        | false => exact hdisables
        | true => exact status hpending ⟨rfl, hdisables.symm⟩
  · exact ⟨hfresh.owner, id⟩

/-- The invariant is kept by every step. -/
theorem HookInv.step (h : HookStep J x db action db') (hinv : HookInv db) :
  HookInv db'
  := by
  refine ⟨h.keys hinv.keys, h.subscriptionKey hinv.subscriptionKey, ?_, ?_⟩
  · intro d' hd' hpending
    obtain ⟨⟨s, hs, howner, henabled⟩, hdisables⟩ := h.pending_row hinv hd' hpending
    have hdeleted : action ≠ .deleted s.id := by
      rintro rfl
      exact h.deleted_rows hd' howner.symm
    obtain ⟨s', hs', hstep⟩ := h.subscription_stays hs hdeleted
    refine ⟨s', hs', hstep.id.trans howner, ?_⟩
    obtain hsame | ⟨-, hoff⟩ | ⟨hon, -⟩ := hstep.enabled
    · rw [hsame]
      exact henabled
    · rw [howner] at hoff
      exact (hdisables hoff).elim
    · exact hon
  · intro s' hs'
    obtain ⟨s, hs, hstep⟩ | ⟨⟨ctx, params, pathPrefix, rfl⟩, -⟩ := h.subscription_cases hs'
    · exact hstep.failing (hinv.failing s hs)
    · simp [newSubscription]

end

/-! ### Runs -/

/-- In every state that any run of the webhook system reaches, in any order of its segments,
every pending delivery belongs to a subscription that exists and is enabled, and every
subscription has no `failing_since` exactly when it has counted no failure. -/
theorem no_delivery_stranded (sha256 : Bytes → Text) (toLowerCase : Text → Text) (w : HookWorld)
    (hw : HookInv w.world.db) (requests : List HookRequest) (sched : List (Nat × HookInput)) :
  (∀ d ∈ ((hookPool sha256 toLowerCase w requests).run sched).conf.state.world.db.deliveries,
      d.status = .pending →
      ∃ s ∈ ((hookPool sha256 toLowerCase w requests).run sched).conf.state.world.db.subscriptions,
        s.id = d.subscriptionId ∧ s.enabled = true) ∧
    ∀ s ∈ ((hookPool sha256 toLowerCase w requests).run sched).conf.state.world.db.subscriptions,
      s.failingSince = none ↔ s.consecutiveFailures = 0
  := by
  have hsteps := hookPool_steps sha256 toLowerCase w requests sched
  have hinv : HookInv
      ((hookPool sha256 toLowerCase w requests).run sched).conf.state.world.db := by
    refine (hsteps.inv (I := fun cf => HookInv cf.state.world.db) ?_ hw).2
    rintro cf i r ⟨x, htick⟩ hinv
    exact hinv.step htick.step
  exact ⟨hinv.owned, hinv.failing⟩

/-- The sample subscription is created, a write enqueues a delivery, its first attempt
fails, and the subscription is disabled. -/
def sampleLife : List HookRequest :=
  [.webhookCreate sampleContext ⟨.org, "https://example.com".toList, [.fileChanged], none, none⟩,
    .file sampleContext (sampleWrite [97] none).2,
    .processDueWebhooks {},
    .webhookUpdate sampleContext { id := "0".toList, enabled := some false }]

/-- The requests of `sampleLife` one after the other. -/
def sampleLifeSchedule : List (Nat × HookInput) :=
  [0, 0, 1, 1, 1, 1, 1, 1, 2, 2, 3].map (·, sampleHookInput 1 500)

theorem no_delivery_stranded_sampleLife :
  ((hookPool sampleHash id ⟨0, World.empty⟩ sampleLife).run
      (sampleLifeSchedule.take 10)).conf.state.world.db.deliveries.map (·.status) = [.pending] ∧
    ((hookPool sampleHash id ⟨0, World.empty⟩ sampleLife).run
      sampleLifeSchedule).conf.state.world.db.deliveries.map (·.status) = [.failed] ∧
    ∀ s ∈ ((hookPool sampleHash id ⟨0, World.empty⟩ sampleLife).run
        sampleLifeSchedule).conf.state.world.db.subscriptions,
      s.failingSince = none ↔ s.consecutiveFailures = 0
  := by
  refine ⟨by decide +kernel, by decide +kernel, ?_⟩
  exact (no_delivery_stranded sampleHash id ⟨0, World.empty⟩ hookInv_empty sampleLife
    sampleLifeSchedule).2

end AgentFs

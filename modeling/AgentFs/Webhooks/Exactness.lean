import AgentFs.Webhooks.Rows

/-!
# The outbox is exact

A delivery row for a subscription and an event is created exactly when the change that
produced the event commits and the subscription wants it at that moment.  No other step
creates a row, a change that is rolled back leaves nothing, and no run makes a second row
for the same subscription and event.
-/

namespace AgentFs

open Async Tabular

/-- There is a delivery of the event to the subscription. -/
def Db.HasDelivery (db : Db) (subscriptionId eventId : Text) : Prop :=
  ∃ d ∈ db.deliveries, d.subscriptionId = subscriptionId ∧ d.eventId = eventId

/-- The subscription wants an event of the mutation: it is enabled, of the same org, org-wide
or of the same drive, lists the type, and for a file change accepts the path. -/
def SubscriptionRow.Wants (mutation : Mutation) (type : WebhookEventType) (s : SubscriptionRow) :
    Prop :=
  s.InScope mutation.ctx ∧ s.Lists type ∧ (type = .fileChanged → s.AcceptsPath mutation.path)

/-- The mutation owes the subscription a delivery of the event. -/
def Mutation.Owes (db : Db) (subscriptionId eventId : Text) (mutation : Mutation) : Prop :=
  ∃ type, (eventId, type) ∈ mutation.events ∧
    ∃ s ∈ db.subscriptions, s.id = subscriptionId ∧ s.Wants mutation type

/-! ### Inserting rows -/

theorem insertDelivery_hasDelivery {db db' : Db} {row : DeliveryRow}
    (h : insertDelivery db row = .ok db') (s e : Text) :
  db'.HasDelivery s e ↔ db.HasDelivery s e ∨ (row.subscriptionId = s ∧ row.eventId = e)
  := by
  obtain ⟨hrows, -, -⟩ := insertDelivery_inserts h
  unfold Db.HasDelivery
  rw [hrows]
  simp only [List.mem_append, List.mem_singleton, or_and_right, exists_or, exists_eq_left]

theorem insertDeliveryOrIgnore_hasDelivery {db db' : Db} {row : DeliveryRow}
    (h : insertDeliveryOrIgnore db row = .ok db') (s e : Text) :
  db'.HasDelivery s e ↔ db.HasDelivery s e ∨ (row.subscriptionId = s ∧ row.eventId = e)
  := by
  unfold insertDeliveryOrIgnore at h
  split at h
  · rename_i htaken
    cases h
    constructor
    · exact .inl
    · rintro (hhas | ⟨rfl, rfl⟩)
      · exact hhas
      · exact htaken
  · exact insertDelivery_hasDelivery h s e

theorem insertAll_hasDelivery {insert : Db → DeliveryRow → Except SqlError Db}
    (hinsert : ∀ {db row db'}, insert db row = .ok db' → ∀ s e, db'.HasDelivery s e ↔
      db.HasDelivery s e ∨ (row.subscriptionId = s ∧ row.eventId = e))
    {rows : List DeliveryRow} {db db' : Db} (h : insertAll insert db rows = .ok db')
    (s e : Text) :
  db'.HasDelivery s e ↔
    db.HasDelivery s e ∨ ∃ row ∈ rows, row.subscriptionId = s ∧ row.eventId = e
  := by
  induction rows generalizing db with
  | nil =>
      cases h
      simp
  | cons row rows ih =>
      obtain ⟨db₁, hrow, hrest⟩ := bind_eq_ok_iff.mp h
      rw [ih hrest, hinsert hrow s e, or_assoc, List.exists_mem_cons_iff]

/-! ### Which rows a mutation inserts -/

/-- The rows of a file change are those for the subscriptions that want it. -/
theorem fileDeliveries_owes (ctx : OpContext) (path : Text) (x : Input) (db : Db) (s e : Text) :
  (∃ row ∈ fileDeliveries ctx path x db, row.subscriptionId = s ∧ row.eventId = e) ↔
    Mutation.Owes db s e ⟨ctx, path, [(x.uuid 0, .fileChanged)]⟩
  := by
  have hmem : s ∈ fileSubscribers ctx path db ↔
      ∃ sub ∈ db.subscriptions, sub.id = s ∧
        (sub.InScope ctx ∧ sub.Lists .fileChanged ∧ sub.AcceptsPath path) := by
    unfold fileSubscribers
    simp only [List.mem_map, List.mem_filter, decide_eq_true_eq]
    constructor
    · rintro ⟨sub, ⟨⟨hsub, hscope, haccepts⟩, hlists⟩, rfl⟩
      exact ⟨sub, hsub, rfl, hscope, hlists, haccepts⟩
    · rintro ⟨sub, hsub, rfl, hscope, hlists, haccepts⟩
      exact ⟨sub, ⟨⟨hsub, hscope, haccepts⟩, hlists⟩, rfl⟩
  constructor
  · rintro ⟨row, hrow, rfl, rfl⟩
    obtain ⟨n, hn, rfl⟩ := List.mem_mapIdx.mp hrow
    refine ⟨.fileChanged, List.mem_singleton.mpr rfl, ?_⟩
    obtain ⟨sub, hsub, hid, hscope, hlists, haccepts⟩ := hmem.mp (List.getElem_mem hn)
    exact ⟨sub, hsub, hid, hscope, hlists, fun _ => haccepts⟩
  · rintro ⟨type, hevent, sub, hsub, hid, hscope, hlists, haccepts⟩
    obtain ⟨rfl, rfl⟩ := Prod.mk.inj (List.mem_singleton.mp hevent)
    obtain ⟨n, hn, hget⟩ :=
      List.getElem_of_mem (hmem.mpr ⟨sub, hsub, hid, hscope, hlists, haccepts rfl⟩)
    refine ⟨_, List.mem_mapIdx.mpr ⟨n, hn, rfl⟩, ?_, rfl⟩
    exact hget

theorem internalToWebhook_ne_fileChanged (type : EventType) :
  internalToWebhook type ≠ some .fileChanged
  := by
  cases type with
  | _ => simp [internalToWebhook]

/-- The entries of the work list are the pairs of an event and a subscription that wants
it. -/
theorem commentWork_owes (ctx : OpContext) (path : Text) (events : List CommentWebhookEvent)
    (db : Db) (s e : Text) :
  (∃ w ∈ commentWork ctx events db, w.2.2 = s ∧ w.1.eventId = e) ↔
    Mutation.Owes db s e ⟨ctx, path, commentEvents events⟩
  := by
  constructor
  · rintro ⟨w, hw, rfl, rfl⟩
    obtain ⟨event, hevent, hw⟩ := List.mem_flatMap.mp hw
    split at hw
    · simp at hw
    · rename_i type htype
      obtain ⟨sub, hsub, rfl⟩ := List.mem_map.mp hw
      simp only [List.mem_filter, decide_eq_true_eq] at hsub
      obtain ⟨⟨hsub, hscope⟩, hlists⟩ := hsub
      refine ⟨type, List.mem_filterMap.mpr ⟨event, hevent, by rw [htype]; rfl⟩, sub, hsub, rfl,
        hscope, hlists, ?_⟩
      rintro rfl
      exact (internalToWebhook_ne_fileChanged _ htype).elim
  · rintro ⟨type, hmem, sub, hsub, rfl, hscope, hlists, -⟩
    obtain ⟨event, hevent, hmap⟩ := List.mem_filterMap.mp hmem
    obtain ⟨type', htype, heq⟩ := Option.map_eq_some_iff.mp hmap
    obtain ⟨rfl, rfl⟩ := Prod.mk.inj heq
    refine ⟨(event, type', sub.id), ?_, rfl, rfl⟩
    apply List.mem_flatMap.mpr
    refine ⟨event, hevent, ?_⟩
    rw [htype]
    apply List.mem_map.mpr
    refine ⟨sub, ?_, rfl⟩
    simp only [List.mem_filter, decide_eq_true_eq]
    exact ⟨⟨hsub, hscope⟩, hlists⟩

/-! ### One step -/

section

variable {J : HookPerms} {x : HookInput} {db db' : Db}

theorem hasDelivery_congr {db₁ : Db} (h : db₁.deliveries = db.deliveries) (s e : Text) :
  db₁.HasDelivery s e ↔ db.HasDelivery s e
  := by
  unfold Db.HasDelivery
  rw [h]

theorem owes_congr {db₁ : Db} (h : db₁.subscriptions = db.subscriptions) (s e : Text)
    (mutation : Mutation) :
  mutation.Owes db₁ s e ↔ mutation.Owes db s e
  := by
  unfold Mutation.Owes
  rw [h]

/-- After a mutation commits there are the deliveries that were there and those it owes. -/
theorem HookStep.mutated_hasDelivery {mutation : Mutation}
    (h : HookStep J x db (.mutated mutation) db') (s e : Text) :
  db'.HasDelivery s e ↔ db.HasDelivery s e ∨ mutation.Owes db s e
  := by
  cases h with
  | file ctx params version tx =>
      obtain ⟨db₁, hrows, hsubs, henqueue⟩ := createVersionTx_outbox tx
      rw [insertAll_hasDelivery insertDelivery_hasDelivery henqueue, fileDeliveries_owes,
        hasDelivery_congr hrows, owes_congr hsubs]
  | @comment db₁ _ ctx path events subscriptions deliveries outbox =>
      rw [insertAll_hasDelivery insertDeliveryOrIgnore_hasDelivery outbox,
        hasDelivery_congr deliveries, ← owes_congr subscriptions,
        ← commentWork_owes ctx path events db₁ s e]
      constructor
      · rintro (hhas | ⟨row, hrow, rfl, rfl⟩)
        · exact .inl hhas
        · obtain ⟨n, hn, rfl⟩ := List.mem_mapIdx.mp hrow
          exact .inr ⟨_, List.getElem_mem hn, rfl, rfl⟩
      · rintro (hhas | ⟨w, hw, rfl, rfl⟩)
        · exact .inl hhas
        · obtain ⟨n, hn, rfl⟩ := List.getElem_of_mem hw
          exact .inr ⟨_, List.mem_mapIdx.mpr ⟨n, hn, rfl⟩, rfl, rfl⟩

theorem HookStep.rolledBack_eq (h : HookStep J x db .rolledBack db') :
  db' = db
  := by
  cases h with
  | rolledBack => rfl

/-- A step that is no mutation creates no delivery. -/
theorem HookStep.hasDelivery_of {action : HookAction} (h : HookStep J x db action db')
    (hkeys : db.DeliveryKeys) (haction : ∀ mutation, action ≠ .mutated mutation) {s e : Text}
    (hhas : db'.HasDelivery s e) :
  db.HasDelivery s e
  := by
  obtain ⟨d', hd', rfl, rfl⟩ := hhas
  obtain ⟨d, hd, hstep⟩ | ⟨-, mutation, heq⟩ := h.row_cases hkeys hd'
  · exact ⟨d, hd, hstep.columns.subscriptionId.symm, hstep.columns.eventId.symm⟩
  · exact (haction mutation heq).elim

end

/-! ### Runs -/

/-- The event ids of a mutation are new: no delivery carries one of them. -/
def NewEventIds : StepProp HookWorld HookEvent := fun cf _ r =>
  match r.1.action with
  | .mutated mutation => ∀ e ∈ mutation.events, ∀ d ∈ cf.state.world.db.deliveries, d.eventId ≠ e.1
  | _ => True

instance (cf : HookConfig) (i : Nat) (r : HookEvent × HookWorld) :
    Decidable (NewEventIds cf i r) := by
  unfold NewEventIds
  split
  · infer_instance
  · infer_instance

/-- In every run of the webhook system whose random event ids are new, in any order of its
segments: at every step a delivery of an event to a subscription is created exactly when
the step commits a mutation that produced the event and the subscription wants it in the
state before; a mutation that is rolled back changes nothing; and in every state there is
at most one delivery of an event to a subscription. -/
theorem outbox_exact (sha256 : Bytes → Text) (toLowerCase : Text → Text) (w : HookWorld)
    (hkeys : w.world.db.DeliveryKeys) (requests : List HookRequest)
    (sched : List (Nat × HookInput))
    (hnew : (hookPool sha256 toLowerCase w requests).Admits NewEventIds sched) :
  (hookPool sha256 toLowerCase w requests).Admits (fun cf _ r =>
      (∀ s e, (r.2.world.db.HasDelivery s e ∧ ¬ cf.state.world.db.HasDelivery s e) ↔
        ∃ mutation, r.1.action = .mutated mutation ∧ mutation.Owes cf.state.world.db s e) ∧
      (r.1.action = .rolledBack → r.2.world.db = cf.state.world.db) ∧
      ∀ s e, (r.2.world.db.deliveries.filter (fun d => d.subscriptionId = s ∧ d.eventId = e)).length
        ≤ 1) sched
  := by
  have hsteps := hookPool_steps sha256 toLowerCase w requests sched
  have hinv : (hookPool sha256 toLowerCase w requests).Admits
      (fun cf _ _ => cf.state.world.db.DeliveryKeys) sched := by
    refine (hsteps.inv (I := fun cf => cf.state.world.db.DeliveryKeys) ?_ hkeys).1
    rintro cf i r ⟨x, htick⟩ hdb
    exact htick.step.keys hdb
  apply Pool.Admits.mono _ (Pool.admits_and.mpr ⟨hsteps, Pool.admits_and.mpr ⟨hinv, hnew⟩⟩)
  rintro cf i r ⟨⟨x, htick⟩, hdb, hnew⟩
  have hstep := htick.step
  refine ⟨?_, ?_, ?_⟩
  · intro s e
    constructor
    · rintro ⟨hhas, hnot⟩
      by_cases hmutated : ∃ mutation, r.1.action = .mutated mutation
      · obtain ⟨mutation, haction⟩ := hmutated
        rw [haction] at hstep
        obtain hold | howes := (hstep.mutated_hasDelivery s e).mp hhas
        · exact (hnot hold).elim
        · exact ⟨mutation, haction, howes⟩
      · have haction : ∀ mutation, r.1.action ≠ .mutated mutation :=
          fun mutation h => hmutated ⟨mutation, h⟩
        exact (hnot (hstep.hasDelivery_of hdb haction hhas)).elim
    · rintro ⟨mutation, haction, howes⟩
      rw [haction] at hstep
      refine ⟨(hstep.mutated_hasDelivery s e).mpr (.inr howes), ?_⟩
      rintro ⟨d, hd, -, heq⟩
      obtain ⟨type, hevent, -⟩ := howes
      simp only [NewEventIds, haction] at hnew
      exact hnew _ hevent d hd heq
  · intro haction
    rw [haction] at hstep
    exact hstep.rolledBack_eq
  · intro s e
    have hafter := (hstep.keys hdb).event
    apply hafter.length_filter_le_one (k := (s, e))
    intro d _ hd
    simp only [decide_eq_true_eq] at hd
    rw [hd.1, hd.2]

/-- A write to `/f`, a comment on it, and the deletion of the subscription. -/
def sampleMutations : List HookRequest :=
  [.file sampleContext (sampleWrite [97] none).2,
    .comment sampleContext (.add { path := some "/f".toList, body := "b".toList }),
    .webhookDelete sampleContext "sub".toList]

/-- The comment is added while the write is under way, and the subscription is deleted after
the write has committed. -/
def sampleMutationSchedule : List (Nat × HookInput) :=
  [0, 0, 1, 0, 0, 0, 2, 0].map (·, sampleHookInput 1 200)

theorem outbox_exact_sampleMutations :
  ((hookPool sampleHash id sampleHookWorld sampleMutations).run
      (sampleMutationSchedule.take 6)).conf.state.world.db.deliveries.map
        (fun d => (d.subscriptionId, d.eventId)) =
      [("sub".toList, "event".toList), ("sub".toList, "0".toList)] ∧
    (hookPool sampleHash id sampleHookWorld sampleMutations).Admits (fun cf _ r =>
      (∀ s e, (r.2.world.db.HasDelivery s e ∧ ¬ cf.state.world.db.HasDelivery s e) ↔
        ∃ mutation, r.1.action = .mutated mutation ∧ mutation.Owes cf.state.world.db s e) ∧
      (r.1.action = .rolledBack → r.2.world.db = cf.state.world.db) ∧
      ∀ s e, (r.2.world.db.deliveries.filter (fun d => d.subscriptionId = s ∧ d.eventId = e)).length
        ≤ 1) sampleMutationSchedule
  := by
  constructor
  · decide +kernel
  · exact outbox_exact sampleHash id sampleHookWorld ⟨by decide, by decide⟩ sampleMutations
      sampleMutationSchedule (by decide +kernel)

end AgentFs

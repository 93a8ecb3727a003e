import AgentFs.Ops.Law
import AgentFs.Ops.Comments
import AgentFs.Webhooks.Worker

/-!
# Runs of the webhook system

The requests of the webhook system and the pool they run in: file and comment operations,
the operations on webhooks, and the ticks and prunes of the workers.  `HookStep` says all
that one segment of any of them can do to the database; the results about runs rest on
it and unfold no operation.
-/

namespace AgentFs

open Async

/-- A request to the webhook system. -/
inductive HookRequest where
  | file (ctx : OpContext) (request : Request)
  | comment (ctx : OpContext) (request : CommentRequest)
  | webhookCreate (ctx : OpContext) (params : WebhookCreateParams)
  | webhookUpdate (ctx : OpContext) (params : WebhookUpdateParams)
  | webhookDelete (ctx : OpContext) (id : Text)
  | webhookRedeliver (ctx : OpContext) (deliveryId : Text)
  | processDueWebhooks (opts : WebhookTickOptions)
  | pruneWebhookDeliveries
  deriving DecidableEq, Repr

/-- What a request to the webhook system answers. -/
inductive HookAnswer where
  | file (response : Response)
  | comment (response : CommentResponse)
  | webhook (response : HookResponse)
  | ticked (summary : WebhookTickSummary)
  | pruned
  deriving DecidableEq, Repr

/-- What a step of a file operation is to the webhook system. -/
def fileAction (ctx : OpContext) (x : Input) : Event → HookAction
  | .commit row => .mutated ⟨ctx, row.path, [(x.uuid 0, .fileChanged)]⟩
  | .abort _ _ _ _ => .rolledBack
  | _ => .quiet

/-- A file operation as a program of the webhook system. -/
def embedFile {α : Type} (ctx : OpContext) (op : Op α) : HookOp α :=
  ExceptT.mk (op.run.embed HookWorld.world (fun _ x w => ⟨x.now, w⟩) HookInput.toInput
    (fun x ev => ⟨x.now, fileAction ctx x.toInput ev⟩))

section

variable (sha256 : Bytes → Text) (toLowerCase : Text → Text)

/-- The program of a request. -/
def HookRequest.program : HookRequest → HookOp HookAnswer
  | .file ctx request => do
      let response ← embedFile ctx (request.program sha256 ctx)
      pure (.file response)
  | .comment ctx request => do
      let response ← request.program toLowerCase ctx
      pure (.comment response)
  | .webhookCreate ctx params => do
      let response ← AgentFs.webhookCreate ctx params
      pure (.webhook response)
  | .webhookUpdate ctx params => do
      let response ← AgentFs.webhookUpdate ctx params
      pure (.webhook response)
  | .webhookDelete ctx id => do
      let response ← AgentFs.webhookDelete ctx id
      pure (.webhook response)
  | .webhookRedeliver ctx deliveryId => do
      let response ← AgentFs.webhookRedeliver ctx deliveryId
      pure (.webhook response)
  | .processDueWebhooks opts => do
      let summary ← AgentFs.processDueWebhooks opts
      pure (.ticked summary)
  | .pruneWebhookDeliveries => do
      AgentFs.pruneWebhookDeliveries
      pure .pruned

/-- The webhook system over a world, with the requests it has just received. -/
def hookPool (w : HookWorld) (requests : List HookRequest) :
    Pool HookWorld HookInput HookEvent (Except OpError HookAnswer) where
  conf := ⟨w, []⟩
  procs := requests.map (fun r => (r.program sha256 toLowerCase).run)

end

/-! ### What a step does -/

/-- What the segments of a program may do beyond the others: settle claims, under which
settings, and commit an update of a subscription that was looked up in an earlier segment. -/
structure HookPerms where
  settles : WebhookTickOptions → ClaimedDelivery → Prop
  updates : Prop

/-- What one segment can do to the database: the action it reports, and the database it
leaves. -/
inductive HookStep (J : HookPerms) (x : HookInput) (db : Db) :
    HookAction → Db → Prop where
  /-- No webhook table changes. -/
  | quiet {db' : Db} (subscriptions : db'.subscriptions = db.subscriptions)
      (deliveries : db'.deliveries = db.deliveries) : HookStep J x db .quiet db'
  /-- `createVersion` commits. -/
  | file {db' : Db} (ctx : OpContext) (params : VersionParams) (version : Nat)
      (tx : createVersionTx ctx params version x.toInput db = .ok db') :
      HookStep J x db (.mutated ⟨ctx, params.path, [(x.uuid 0, .fileChanged)]⟩) db'
  /-- A comment operation commits; `db₁` is the database its transaction has reached when
  it comes to the outbox. -/
  | comment {db₁ db' : Db} (ctx : OpContext) (path : Text) (events : List CommentWebhookEvent)
      (subscriptions : db₁.subscriptions = db.subscriptions)
      (deliveries : db₁.deliveries = db.deliveries)
      (outbox : enqueueCommentWebhooks ctx events x.toInput db₁ = .ok db') :
      HookStep J x db (.mutated ⟨ctx, path, commentEvents events⟩) db'
  | rolledBack : HookStep J x db .rolledBack db
  | created {db' : Db} (ctx : OpContext) (params : WebhookCreateParams)
      (pathPrefix : Option Text)
      (insert : insertSubscription (newSubscription ctx params pathPrefix x) db = .ok db') :
      HookStep J x db (.created (newSubscription ctx params pathPrefix x).id) db'
  | lookedUp (row : SubscriptionRow) (found : row ∈ db.subscriptions) :
      HookStep J x db (.lookedUp row.id row.enabled) db
  | updated (params : WebhookUpdateParams) (pathPrefix : Option (Option Text))
      (row : SubscriptionRow) (awaited : Bool)
      (keeps : ¬ (params.enabled = some false ∧ row.enabled = true))
      (found : if awaited then J.updates else row ∈ db.subscriptions) :
      HookStep J x db (.updated row.id params.enabled awaited)
        (updateSubscription row.id (updatedSubscription params pathPrefix x) db)
  | disabled (params : WebhookUpdateParams) (pathPrefix : Option (Option Text))
      (row : SubscriptionRow) (disables : params.enabled = some false ∧ row.enabled = true) :
      HookStep J x db (.disabled row.id)
        (disableSubscription row.id .manual x.now
          (updateSubscription row.id (updatedSubscription params pathPrefix x) db))
  | deleted (id : Text) : HookStep J x db (.deleted id) (deleteSubscription id db)
  | redelivered (d : DeliveryRow) (s : SubscriptionRow) (delivery : d ∈ db.deliveries)
      (subscription : s ∈ db.subscriptions) (owner : s.id = d.subscriptionId)
      (enabled : s.enabled = true)
      (redeliverable : ∃ e ∈ db.deliveries, e.id = d.id ∧ e.Redeliverable x.now) :
      HookStep J x db (.redelivered d.id) (requeueDelivery d.id x.now db)
  | claimed (batch : Nat) :
      HookStep J x db (.claimed (claimDueDeliveries x.now batch db).1)
        (claimDueDeliveries x.now batch db).2
  | deferred (opts : WebhookTickOptions) (claim : ClaimedDelivery) (error : Text)
      (job : J.settles opts claim) :
      HookStep J x db (.deferred claim (deferClaim claim error x.now db).1)
        (deferClaim claim error x.now db).2
  | recorded (opts : WebhookTickOptions) (claim : ClaimedDelivery) (job : J.settles opts claim) :
      HookStep J x db
        (.recorded claim (recordResult opts claim x db).outcome
          (recordResult opts claim x db).disabled)
        (recordResult opts claim x db).db
  | pruned :
      HookStep J x db .pruned { db with deliveries := db.deliveries.filter (fun d =>
        ¬ (d.status ≠ .pending ∧ d.createdAt + deliveryRetentionMs < x.now)) }

/-- A segment of the webhook system: it does one of the steps, at the time it reads from
the clock. -/
structure HookTick (J : HookPerms) (x : HookInput)
    (w : HookWorld) (r : HookEvent × HookWorld) : Prop where
  step : HookStep J x w.world.db r.1.action r.2.world.db
  time : r.1.time = x.now
  clock : r.2.clock = x.now

/-- A segment that always does one of the steps. -/
def HookSegment (J : HookPerms)
    (f : HookWorld → HookInput → HookEvent × HookWorld) : Prop :=
  ∀ w x, HookTick J x w (f w x)

section

variable {J : HookPerms}

theorem hookSegment_steps {α : Type} {f : Db → HookInput → Except OpError α × HookAction × Db}
    (h : ∀ db x, HookStep J x db (f db x).2.1 (f db x).2.2) :
  (hookSegment f).run.Segments (HookSegment J)
  := Fallible.segments_atomic (fun w x => ⟨h w.world.db x, rfl, rfl⟩)

/-! ### File operations -/

theorem embedFile_steps {α : Type} {sha256 : Bytes → Text} {ctx : OpContext} {op : Op α}
    (h : op.run.Segments (LawfulSegment sha256 ctx)) :
  (embedFile ctx op).run.Segments (HookSegment J)
  := by
  apply Prog.Segments.embed _ h
  intro f hf w x
  refine ⟨?_, rfl, rfl⟩
  have henq := (hf w.world x.toInput).enqueues
  cases hev : (f w.world x.toInput).1 with
  | commit row =>
      rw [hev] at henq
      obtain ⟨params, version, rfl, htx⟩ := henq
      simp only [hev]
      exact .file ctx params version htx
  | abort driveId path version e =>
      rw [hev] at henq
      have hsame : (f w.world x.toInput).2 = w.world := henq
      simp only [hev, hsame]
      exact .rolledBack
  | _ =>
      rw [hev] at henq
      simp only [hev]
      exact .quiet henq.1 henq.2

/-! ### Comment operations -/

/-- Inserting events changes no other table. -/
theorem insertEvents_frame {rows : List EventRow} {db db' : Db}
    (h : insertEvents rows db = .ok db') :
  db' = { db with events := db'.events }
  := by
  induction rows generalizing db with
  | nil =>
      cases h
      rfl
  | cons row rows ih =>
      unfold insertEvents at h
      split at h
      · cases h
      · rw [ih h]

/-- The webhook tables are as they were. -/
structure SameHooks (db db' : Db) : Prop where
  subscriptions : db'.subscriptions = db.subscriptions
  deliveries : db'.deliveries = db.deliveries

/-- The end of the transaction of a comment: it inserts events into a database with the old
webhook tables. -/
theorem sameHooks_insertEvents {db db₁ db' : Db} {rows : List EventRow}
    {events events' : List CommentWebhookEvent}
    (h : (do let db₂ ← insertEvents rows db₁; pure (db₂, events) :
      Except SqlError (Db × List CommentWebhookEvent)) = .ok (db', events'))
    (hsame : SameHooks db db₁) :
  SameHooks db db'
  := by
  obtain ⟨db₂, hins, hpure⟩ := bind_eq_ok_iff.mp h
  cases hpure
  rw [insertEvents_frame hins]
  exact ⟨hsame.subscriptions, hsame.deliveries⟩

theorem commentAddTx_sameHooks {ctx : OpContext} {row : CommentRow} {userIds : List Text}
    {x : Input} {db db' : Db} {events : List CommentWebhookEvent}
    (h : commentAddTx ctx row userIds x db = .ok (db', events)) :
  SameHooks db db'
  := by
  unfold commentAddTx at h
  split at h
  · cases h
  · exact sameHooks_insertEvents h ⟨rfl, rfl⟩

theorem commentUpdateTx_sameHooks {ctx : OpContext} {params : CommentUpdateParams}
    {userIds : Option (List Text)} {x : Input} {db db' : Db}
    {events : List CommentWebhookEvent}
    (h : commentUpdateTx ctx params userIds x db = .ok (db', events)) :
  SameHooks db db'
  := by
  unfold commentUpdateTx at h
  cases userIds with
  | none => exact sameHooks_insertEvents h ⟨rfl, rfl⟩
  | some userIds => exact sameHooks_insertEvents h ⟨rfl, rfl⟩

/-- The transaction of every request about comments leaves the webhook tables to the
outbox. -/
theorem CommentRequest.change_sameHooks {toLowerCase : Text → Text} {ctx : OpContext}
    {x : Input} {db db' : Db} {request : CommentRequest} {change : CommentChange}
    {events : List CommentWebhookEvent} (h : request.change toLowerCase ctx x db = .ok change)
    (htx : change.tx = .ok (db', events)) :
  SameHooks db db'
  := by
  cases request with
  | add params =>
      obtain ⟨path, -, h⟩ := bind_eq_ok_iff.mp h
      obtain ⟨userIds, -, h⟩ := bind_eq_ok_iff.mp h
      cases h
      exact commentAddTx_sameHooks htx
  | update params =>
      obtain ⟨row, -, h⟩ := bind_eq_ok_iff.mp h
      obtain ⟨_, -, h⟩ := bind_eq_ok_iff.mp h
      dsimp only at h
      split at h
      · cases h
        dsimp only at htx
        exact commentUpdateTx_sameHooks htx
      · obtain ⟨userIds, -, h⟩ := bind_eq_ok_iff.mp h
        cases h
        exact commentUpdateTx_sameHooks htx
  | delete id =>
      obtain ⟨row, -, h⟩ := bind_eq_ok_iff.mp h
      obtain ⟨_, -, h⟩ := bind_eq_ok_iff.mp h
      cases h
      exact sameHooks_insertEvents htx ⟨rfl, rfl⟩
  | resolve params =>
      obtain ⟨row, -, h⟩ := bind_eq_ok_iff.mp h
      split at h
      · cases h
      · cases h
        exact sameHooks_insertEvents htx ⟨rfl, rfl⟩

theorem CommentRequest.program_steps (toLowerCase : Text → Text) (ctx : OpContext)
    (request : CommentRequest) :
  (request.program toLowerCase ctx).run.Segments (HookSegment J)
  := by
  apply hookSegment_steps
  intro db x
  split
  · exact .quiet rfl rfl
  · rename_i change hchange
    split
    · exact .rolledBack
    · rename_i db' mutation hcommit
      unfold commitComment at hcommit
      split at hcommit
      · cases hcommit
      · obtain ⟨⟨db₁, events⟩, htx, hcommit⟩ := bind_eq_ok_iff.mp hcommit
        obtain ⟨db₂, houtbox, hpure⟩ := bind_eq_ok_iff.mp hcommit
        cases hpure
        have hsame := change_sameHooks hchange htx
        exact .comment ctx change.path events hsame.subscriptions hsame.deliveries houtbox

/-! ### The operations on webhooks -/

theorem createWebhook_created {ctx : OpContext} {params : WebhookCreateParams} {x : HookInput}
    {db db' : Db} {row : SubscriptionRow} (h : createWebhook ctx params x db = .ok (row, db')) :
  ∃ pathPrefix, row = newSubscription ctx params pathPrefix x ∧
    insertSubscription row db = .ok db'
  := by
  obtain ⟨pathPrefix, -, h⟩ := bind_eq_ok_iff.mp h
  split at h
  · cases h
  · dsimp only at h
    split at h
    · cases h
    · obtain ⟨db₁, hins, h⟩ := bind_eq_ok_iff.mp h
      cases h
      refine ⟨pathPrefix, rfl, ?_⟩
      cases hrow : insertSubscription (newSubscription ctx params pathPrefix x) db with
      | error e => simp [hrow, Except.mapError] at hins
      | ok db₂ =>
          rw [hrow] at hins
          cases hins
          rfl

theorem webhookCreate_steps (ctx : OpContext) (params : WebhookCreateParams) :
  (webhookCreate ctx params).run.Segments (HookSegment J)
  := by
  apply Fallible.segments_bind
  · exact hookSegment_steps (fun db x => .quiet rfl rfl)
  · intro _
    apply hookSegment_steps
    intro db x
    unfold webhookCreateTx
    split
    · exact .quiet rfl rfl
    · split
      · exact .quiet rfl rfl
      · rename_i row db' hcreate
        obtain ⟨pathPrefix, rfl, hins⟩ := createWebhook_created hcreate
        exact .created ctx params pathPrefix hins

/-- A scoped subscription is in the table, under the id asked for. -/
theorem getScopedSubscription_mem {ctx : OpContext} {id : Text} {x : HookInput} {db : Db}
    {row : SubscriptionRow} (h : getScopedSubscription ctx id x db = .ok row) :
  row ∈ db.subscriptions ∧ row.id = id
  := by
  unfold getScopedSubscription at h
  split at h
  · cases h
  · rename_i found hfound
    obtain ⟨_, -, hpure⟩ := bind_eq_ok_iff.mp h
    cases hpure
    have hprop := List.find?_some hfound
    simp only [decide_eq_true_eq] at hprop
    exact ⟨List.mem_of_find?_eq_some hfound, hprop.1⟩

theorem updateWebhook_step (params : WebhookUpdateParams) (row : SubscriptionRow)
    (awaited : Bool) (db : Db) (x : HookInput)
    (found : if awaited then J.updates else row ∈ db.subscriptions) :
  HookStep J x db (updateWebhook params row awaited db x).2.1
    (updateWebhook params row awaited db x).2.2
  := by
  unfold updateWebhook
  dsimp only
  split
  · exact .quiet rfl rfl
  · rename_i pathPrefix _
    split
    · exact .quiet rfl rfl
    · by_cases hdisables : params.enabled = some false ∧ row.enabled = true
      · simp only [hdisables, and_self, decide_true, if_true]
        exact .disabled params pathPrefix row hdisables
      · simp only [hdisables, decide_false, Bool.false_eq_true, if_false]
        exact .updated params pathPrefix row awaited hdisables found

theorem webhookUpdate_steps (hupdates : J.updates) (ctx : OpContext)
    (params : WebhookUpdateParams) :
  (webhookUpdate ctx params).run.Segments (HookSegment J)
  := by
  unfold webhookUpdate
  split
  · apply hookSegment_steps
    intro db x
    split
    · exact .quiet rfl rfl
    · rename_i row hrow
      exact updateWebhook_step _ _ _ _ _ (getScopedSubscription_mem hrow).1
  · apply Fallible.segments_bind
    · apply hookSegment_steps
      intro db x
      split
      · exact .quiet rfl rfl
      · rename_i row hrow
        exact .lookedUp row (getScopedSubscription_mem hrow).1
    · intro row
      apply hookSegment_steps
      intro db x
      unfold webhookUpdateTx
      split
      · exact .quiet rfl rfl
      · exact updateWebhook_step _ _ _ _ _ hupdates

theorem webhookDelete_steps (ctx : OpContext) (id : Text) :
  (webhookDelete ctx id).run.Segments (HookSegment J)
  := by
  apply hookSegment_steps
  intro db x
  split
  · exact .quiet rfl rfl
  · split
    · exact .quiet rfl rfl
    · exact .deleted _

/-- A scoped delivery is in the table, and so is its subscription. -/
theorem getScopedDelivery_mem {ctx : OpContext} {deliveryId : Text} {x : HookInput} {db : Db}
    {d : DeliveryRow} {s : SubscriptionRow}
    (h : getScopedDelivery ctx deliveryId x db = .ok (d, s)) :
  d ∈ db.deliveries ∧ s ∈ db.subscriptions ∧ s.id = d.subscriptionId
  := by
  unfold getScopedDelivery at h
  dsimp only at h
  split at h
  · cases h
  · rename_i row hfound
    obtain ⟨_, -, hpure⟩ := bind_eq_ok_iff.mp h
    cases hpure
    obtain ⟨e, he, hsub⟩ := List.exists_of_findSome?_eq_some hfound
    obtain ⟨s', hs', heq⟩ := Option.map_eq_some_iff.mp hsub
    cases heq
    have hprop := List.find?_some hs'
    simp only [decide_eq_true_eq] at hprop
    exact ⟨List.mem_of_mem_filter he, List.mem_of_find?_eq_some hs', hprop.1⟩

theorem webhookRedeliver_steps (ctx : OpContext) (deliveryId : Text) :
  (webhookRedeliver ctx deliveryId).run.Segments (HookSegment J)
  := by
  apply hookSegment_steps
  intro db x
  split
  · exact .quiet rfl rfl
  · rename_i d s hscoped
    obtain ⟨hd, hs, howner⟩ := getScopedDelivery_mem hscoped
    split
    · exact .quiet rfl rfl
    · split
      · exact .quiet rfl rfl
      · rename_i henabled
        split
        · rename_i row hrow
          have hprop := List.find?_some hrow
          simp only [decide_eq_true_eq] at hprop
          exact .redelivered d s hd hs howner (by simpa using henabled)
            ⟨row, List.mem_of_find?_eq_some hrow, hprop⟩
        · exact .quiet rfl rfl

theorem pruneWebhookDeliveries_steps :
  pruneWebhookDeliveries.run.Segments (HookSegment J)
  := by
  apply hookSegment_steps
  intro db x
  split
  · exact .quiet rfl rfl
  · exact .pruned

/-! ### The worker -/

theorem settleJob_step {opts : WebhookTickOptions} {job : Job} (hjob : J.settles opts job.1) (db : Db)
    (x : HookInput) :
  HookStep J x db (settleJob opts job db x).2.1 (settleJob opts job db x).2.2
  := by
  unfold settleJob
  split
  · exact .quiet rfl rfl
  · split
    · exact .quiet rfl rfl
    · exact .deferred opts _ _ hjob
    · exact .recorded opts _ hjob

theorem settleJobs_steps {opts : WebhookTickOptions} (hopts : ∀ claim, J.settles opts claim) (n : Nat)
    (jobs : List Job) (summary : WebhookTickSummary) :
  (settleJobs opts n jobs summary).run.Segments (HookSegment J)
  := by
  induction n generalizing jobs summary with
  | zero => exact Fallible.segments_pure _
  | succ n ih =>
      apply Fallible.segments_bind
      · apply hookSegment_steps
        intro db x
        dsimp only
        split
        · exact .quiet rfl rfl
        · exact settleJob_step (hopts _) _ _
      · rintro ⟨jobs', summary'⟩
        exact ih jobs' summary'

theorem claimJobs_step (opts : WebhookTickOptions) (db : Db) (x : HookInput) :
  HookStep J x db (claimJobs opts db x).2.1 (claimJobs opts db x).2.2
  := by
  unfold claimJobs
  split
  · exact .quiet rfl rfl
  · split
    · exact .quiet rfl rfl
    · exact .claimed opts.batch

theorem processDueWebhooks_steps {opts : WebhookTickOptions} (hopts : ∀ claim, J.settles opts claim) :
  (processDueWebhooks opts).run.Segments (HookSegment J)
  := by
  apply Fallible.segments_bind
  · exact hookSegment_steps (claimJobs_step opts)
  · exact fun jobs => settleJobs_steps hopts _ _ _

end

/-! ### Runs -/

/-- The request needs no more than the given permissions. -/
def HookRequest.Needs (J : HookPerms) : HookRequest → Prop
  | .processDueWebhooks opts => ∀ claim, J.settles opts claim
  | .webhookUpdate _ _ => J.updates
  | _ => True

/-- What the requests may do: settle claims under the settings of one of their ticks. -/
def permsOf (requests : List HookRequest) : HookPerms where
  settles opts _ := .processDueWebhooks opts ∈ requests
  updates := True

section

variable (sha256 : Bytes → Text) (toLowerCase : Text → Text)

/-- Every segment of a request does one of the steps, within the permissions it needs. -/
theorem HookRequest.program_steps {J : HookPerms} {request : HookRequest}
    (h : request.Needs J) :
  (request.program sha256 toLowerCase).run.Segments (HookSegment J)
  := by
  cases request with
  | file ctx request =>
      apply Fallible.segments_bind (embedFile_steps (program_lawful ctx request))
      exact fun _ => Fallible.segments_pure _
  | comment ctx request =>
      apply Fallible.segments_bind (request.program_steps toLowerCase ctx)
      exact fun _ => Fallible.segments_pure _
  | webhookCreate ctx params =>
      apply Fallible.segments_bind (webhookCreate_steps ctx params)
      exact fun _ => Fallible.segments_pure _
  | webhookUpdate ctx params =>
      apply Fallible.segments_bind (webhookUpdate_steps h ctx params)
      exact fun _ => Fallible.segments_pure _
  | webhookDelete ctx id =>
      apply Fallible.segments_bind (webhookDelete_steps ctx id)
      exact fun _ => Fallible.segments_pure _
  | webhookRedeliver ctx deliveryId =>
      apply Fallible.segments_bind (webhookRedeliver_steps ctx deliveryId)
      exact fun _ => Fallible.segments_pure _
  | processDueWebhooks opts =>
      apply Fallible.segments_bind (processDueWebhooks_steps h)
      exact fun _ => Fallible.segments_pure _
  | pruneWebhookDeliveries =>
      apply Fallible.segments_bind pruneWebhookDeliveries_steps
      exact fun _ => Fallible.segments_pure _

/-- Every step of every run of the webhook system is one of the steps. -/
theorem hookPool_steps (w : HookWorld) (requests : List HookRequest)
    (sched : List (Nat × HookInput)) :
  (hookPool sha256 toLowerCase w requests).Admits
    (fun cf _ r => ∃ x, HookTick (permsOf requests) x cf.state r) sched
  := by
  apply Pool.admits_of_always (L := fun w r => ∃ x, HookTick (permsOf requests) x w r)
  intro p hp
  obtain ⟨r, hr, rfl⟩ := List.mem_map.mp hp
  have hneeds : r.Needs (permsOf requests) := by
    cases r with
    | processDueWebhooks opts => exact fun _ => hr
    | _ => trivial
  exact Prog.Segments.mono (fun _ hf w x => ⟨x, hf w x⟩)
    (r.program_steps sha256 toLowerCase hneeds)

/-- A program whose steps obey a rule on their own follows it. -/
theorem HookRequest.follows_of_needs {J : HookPerms} {R : Rule HookEvent}
    (hR : ∀ {x db action db'}, HookStep J x db action db' → ∀ h time, R h ⟨time, action⟩)
    {request : HookRequest} (hneeds : request.Needs J) (h : List HookEvent) :
  (request.program sha256 toLowerCase).run.Follows R (fun _ _ => True) h
  := by
  have halways : (request.program sha256 toLowerCase).run.Always
      (fun w r => ∃ x, HookTick J x w r) :=
    Prog.Segments.mono (fun _ hf w x => ⟨x, hf w x⟩)
      (HookRequest.program_steps sha256 toLowerCase hneeds)
  apply Prog.Follows.mono (fun _ _ _ => trivial)
  apply Prog.Always.follows (P := fun ev => ∀ h, R h ev) _ (fun h ev hev => hev h) halways h
  rintro w r ⟨x, htick⟩ h
  exact hR htick.step h r.1.time

end

/-! ### Settled claims were claimed -/

/-- The action settles the claim. -/
def HookAction.Settles (claim : ClaimedDelivery) : HookAction → Prop
  | .deferred c _ => c = claim
  | .recorded c _ _ => c = claim
  | _ => False

/-- The event claims the delivery. -/
def HookEvent.Claims (claim : ClaimedDelivery) (ev : HookEvent) : Prop :=
  ∃ claims, ev.action = .claimed claims ∧ claim ∈ claims

/-- The rule of every program: it settles only what it has claimed. -/
def SettlesOwn (h : List HookEvent) (ev : HookEvent) : Prop :=
  ∀ claim, ev.action.Settles claim → ∃ e ∈ h, e.Claims claim

/-- A step that may settle nothing settles nothing. -/
theorem HookStep.not_settles {x : HookInput} {db db' : Db} {action : HookAction}
    (h : HookStep ⟨fun _ _ => False, True⟩ x db action db') (claim : ClaimedDelivery) :
  ¬ action.Settles claim
  := by
  cases h with
  | deferred opts claim error job => exact job.elim
  | recorded opts claim job => exact job.elim
  | _ => exact id

theorem settleJob_settles (opts : WebhookTickOptions) (job : Job) (db : Db) (x : HookInput)
    {claim : ClaimedDelivery} (h : (settleJob opts job db x).2.1.Settles claim) :
  claim = job.1
  := by
  unfold settleJob at h
  split at h
  · exact h.elim
  · split at h
    · exact h.elim
    · exact h.symm
    · exact h.symm

/-- A tick settles its own jobs. -/
theorem settleJobs_follows (opts : WebhookTickOptions) (n : Nat) (jobs : List Job)
    (summary : WebhookTickSummary) {h : List HookEvent}
    (hjobs : ∀ job ∈ jobs, ∃ e ∈ h, e.Claims job.1) :
  (settleJobs opts n jobs summary).Follows SettlesOwn (fun _ _ => True) (fun _ _ => True) h
  := by
  induction n generalizing jobs summary h with
  | zero => exact Fallible.Follows.pure trivial
  | succ n ih =>
      apply Fallible.Follows.bind
      apply Fallible.Follows.atomic
      intro w x
      dsimp only
      split
      · refine ⟨fun claim hclaim => hclaim.elim, ?_⟩
        apply ih
        intro job hjob
        obtain ⟨e, he, hclaims⟩ := hjobs job hjob
        exact ⟨e, List.mem_cons_of_mem _ he, hclaims⟩
      · rename_i job hjob
        refine ⟨?_, ?_⟩
        · intro claim hclaim
          rw [settleJob_settles opts job w.world.db x hclaim]
          exact hjobs job (List.mem_of_getElem? hjob)
        · apply ih
          intro job' hjob'
          obtain ⟨e, he, hclaims⟩ := hjobs job' (List.mem_of_mem_eraseIdx hjob')
          exact ⟨e, List.mem_cons_of_mem _ he, hclaims⟩

theorem processDueWebhooks_follows (opts : WebhookTickOptions) (h : List HookEvent) :
  (processDueWebhooks opts).Follows SettlesOwn (fun _ _ => True) (fun _ _ => True) h
  := by
  apply Fallible.Follows.bind
  apply Fallible.Follows.atomic
  intro w x
  dsimp only [claimJobs]
  split
  · exact ⟨fun claim hclaim => hclaim.elim, Fallible.Follows.pure trivial⟩
  · split
    · exact ⟨fun claim hclaim => hclaim.elim, trivial⟩
    · refine ⟨fun claim hclaim => hclaim.elim, ?_⟩
      apply settleJobs_follows
      intro job hjob
      obtain ⟨claim, hclaim, rfl⟩ := List.mem_map.mp hjob
      exact ⟨_, List.mem_cons_self, _, rfl, hclaim⟩

section

variable (sha256 : Bytes → Text) (toLowerCase : Text → Text)

theorem HookRequest.program_follows (request : HookRequest) (h : List HookEvent) :
  (request.program sha256 toLowerCase).run.Follows SettlesOwn (fun _ _ => True) h
  := by
  cases request with
  | processDueWebhooks opts =>
      have hbind : (HookRequest.program sha256 toLowerCase (.processDueWebhooks opts)).Follows
          SettlesOwn (fun _ _ => True) (fun _ _ => True) h := by
        apply Fallible.Follows.bind
        exact Fallible.Follows.mono (fun _ _ _ => Fallible.Follows.pure trivial)
          (fun _ _ _ => trivial) (processDueWebhooks_follows opts h)
      exact Prog.Follows.mono (fun _ _ _ => trivial) hbind
  | _ =>
      refine HookRequest.follows_of_needs sha256 toLowerCase
        (J := ⟨fun _ _ => False, True⟩) ?_ ?_ h
      · intro x db action db' hstep h time claim hclaim
        exact (hstep.not_settles claim hclaim).elim
      · trivial

/-- Every claim that a step of a run settles has been claimed before. -/
theorem hookPool_settles (w : HookWorld) (requests : List HookRequest)
    (sched : List (Nat × HookInput)) :
  (hookPool sha256 toLowerCase w requests).Admits
    (fun cf _ r => ∀ claim, r.1.action.Settles claim → ∃ t ∈ cf.trace, t.2.Claims claim) sched
  := by
  have hfollows : ∀ (i : Nat) p, (hookPool sha256 toLowerCase w requests).procs[i]? = some p →
      p.Follows SettlesOwn (fun _ _ => True)
        ((hookPool sha256 toLowerCase w requests).conf.own i) := by
    intro i p hp
    simp only [hookPool, List.getElem?_map, Option.map_eq_some_iff] at hp
    obtain ⟨request, -, rfl⟩ := hp
    exact request.program_follows sha256 toLowerCase _
  have hadmits := (Pool.run_follows (R := fun _ => SettlesOwn) (Q := fun _ _ _ => True)
    hfollows sched).1
  apply Pool.Admits.mono _ hadmits
  intro cf i r hrule claim hclaim
  obtain ⟨e, he, hclaims⟩ := hrule claim hclaim
  exact ⟨(i, e), Conf.mem_own.mp he, hclaims⟩

end

/-! ### A sample system -/

/-- A subscription of the sample org to all file changes. -/
def sampleSubscription : SubscriptionRow where
  id := "sub".toList
  orgId := "org".toList
  driveId := none
  url := "https://example.com".toList
  description := none
  eventTypes := some [.fileChanged]
  pathPrefix := none
  secretCiphertext := []
  enabled := true
  disabledReason := none
  disabledAt := none
  consecutiveFailures := 0
  failingSince := none
  lastSuccessAt := none
  lastFailureAt := none
  createdBy := "user".toList
  createdAt := 0
  updatedAt := 0

/-- A world with the sample subscription and one delivery that is due. -/
def sampleHookWorld : HookWorld where
  clock := 0
  world :=
    { World.empty with db :=
      { Db.empty with
        subscriptions := [sampleSubscription]
        deliveries :=
          [newDelivery "delivery".toList "sub".toList "event".toList .fileChanged [] 0] } }

/-- The input of a segment at a time, with the status code of the receiver. -/
def sampleHookInput (now statusCode : Nat) : HookInput where
  toInput := { sampleInput with now := now }
  denied := none
  urlError := none
  secretCiphertext := []
  decryptError _ := none
  pick := 0
  result := ⟨statusCode = 200, some statusCode, none⟩
  stopped := false
  jitter delay := delay

end AgentFs

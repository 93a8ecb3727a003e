import AgentFs.Webhooks.Stranded

/-!
# Disabling a subscription

`webhook-update` with `enabled: false` decides from the row it has looked up whether there
is anything to disable.  When it checks a URL in between, another request may enable the
subscription before its transaction runs; the request then reports success and leaves the
subscription enabled.  Whenever this does not happen, the subscription is disabled and has
no pending delivery until an operation enables it again.
-/

namespace AgentFs

open Async Tabular

/-- Every subscription with the id is disabled. -/
def Disabled (db : Db) (id : Text) : Prop :=
  ∀ s ∈ db.subscriptions, s.id = id → s.enabled = false

/-- The subscription is disabled and has no pending delivery. -/
structure Off (db : Db) (id : Text) : Prop where
  disabled : Disabled db id
  settled : ∀ d ∈ db.deliveries, d.subscriptionId = id → d.status ≠ .pending

/-- A pending delivery has an enabled subscription, so it is enough that the subscription is
disabled. -/
theorem HookInv.off {db : Db} (hinv : HookInv db) {id : Text} (h : Disabled db id) :
  Off db id
  := by
  refine ⟨h, ?_⟩
  rintro d hd rfl hpending
  obtain ⟨s, hs, hid, henabled⟩ := hinv.owned d hd hpending
  rw [h s hs hid] at henabled
  cases henabled

/-- The action commits an update that was asked to disable the subscription. -/
def HookAction.AsksDisable (id : Text) : HookAction → Prop
  | .disabled i => i = id
  | .updated i enabled _ => i = id ∧ enabled = some false
  | _ => False

/-- The action enables the subscription. -/
def HookAction.Enables (id : Text) : HookAction → Prop
  | .created i => i = id
  | .updated i enabled _ => i = id ∧ enabled = some true
  | _ => False

/-- Every request to disable a subscription that has returned successfully has committed,
and since then the subscription is disabled without a pending delivery, unless an operation
has enabled it again. -/
def DisableEffective (requests : List HookRequest)
    (P : Pool HookWorld HookInput HookEvent (Except OpError HookAnswer)) : Prop :=
  ∀ i ctx params answer, requests[i]? = some (.webhookUpdate ctx params) →
    params.enabled = some false → P.result? i = some (.ok answer) →
    ∃ later ev earlier, P.conf.trace = later ++ (i, ev) :: earlier ∧
      ev.action.AsksDisable params.id ∧
      (Off P.conf.state.world.db params.id ∨ ∃ e ∈ later, e.2.action.Enables params.id)

/-- The subscription that an update was asked to disable and left as it was. -/
def HookAction.leftDisabled : HookAction → Option Text
  | .updated id (some false) _ => some id
  | _ => none

/-- A request that was asked to disable a subscription and has found it disabled finds it
still disabled when it commits. -/
def StillDisabled : StepProp HookWorld HookEvent := fun cf i r =>
  ∀ id ∈ r.1.action.leftDisabled,
    (∃ t ∈ cf.trace, t.1 = i ∧ t.2.action = .lookedUp id false) → Disabled cf.state.world.db id

instance (db : Db) (id : Text) : Decidable (Disabled db id) :=
  inferInstanceAs (Decidable (∀ s ∈ db.subscriptions, _))

instance (cf : HookConfig) (i : Nat) (r : HookEvent × HookWorld) :
    Decidable (StillDisabled cf i r) :=
  inferInstanceAs (Decidable (∀ id ∈ r.1.action.leftDisabled, _))

/-! ### What an update reports -/

/-- The rule of every program: when an update that awaited the URL check was asked to disable
and does not, it has found the subscription disabled. -/
def LooksUp (h : List HookEvent) (ev : HookEvent) : Prop :=
  ∀ id, ev.action = .updated id (some false) true → ∃ e ∈ h, e.action = .lookedUp id false

/-- A step that may not commit such an update does not. -/
theorem HookStep.not_updated {x : HookInput} {db db' : Db} {action : HookAction}
    (h : HookStep ⟨fun _ _ => True, False⟩ x db action db') (id : Text)
    (enabled : Option Bool) :
  action ≠ .updated id enabled true
  := by
  cases h with
  | updated params pathPrefix row awaited keeps found =>
      cases awaited with
      | false => simp
      | true => exact found.elim
  | _ => simp

theorem updateWebhook_cases (params : WebhookUpdateParams) (row : SubscriptionRow)
    (awaited : Bool) (db : Db) (x : HookInput) :
  (∃ e, (updateWebhook params row awaited db x).1 = .error e ∧
      (updateWebhook params row awaited db x).2.1 = .quiet) ∨
    (updateWebhook params row awaited db x).2.1 = .disabled row.id ∨
    ((updateWebhook params row awaited db x).2.1 = .updated row.id params.enabled awaited ∧
      ¬ (params.enabled = some false ∧ row.enabled = true))
  := by
  unfold updateWebhook
  dsimp only
  split
  · exact .inl ⟨_, rfl, rfl⟩
  · split
    · exact .inl ⟨_, rfl, rfl⟩
    · by_cases hdisables : params.enabled = some false ∧ row.enabled = true
      · simp [hdisables]
      · right
        right
        refine ⟨?_, hdisables⟩
        simp only [hdisables, decide_false, Bool.false_eq_true, if_false]

/-- What a request to disable has reported once it has returned successfully. -/
def Reported (params : WebhookUpdateParams) (h : List HookEvent) : Prop :=
  params.enabled = some false → ∃ ev ∈ h, ev.action.AsksDisable params.id

/-- The committing segment of an update, after the lookup of its row. -/
theorem updateWebhook_follows {params : WebhookUpdateParams} {row : SubscriptionRow}
    (hid : row.id = params.id) {awaited : Bool} {h : List HookEvent}
    (hlooked : awaited = true → ∃ e ∈ h, e.action = .lookedUp row.id row.enabled) (db : Db)
    (x : HookInput) (time : Nat) :
  LooksUp h ⟨time, (updateWebhook params row awaited db x).2.1⟩ ∧
    ∀ answer, (updateWebhook params row awaited db x).1 = .ok answer →
      Reported params (⟨time, (updateWebhook params row awaited db x).2.1⟩ :: h)
  := by
  obtain ⟨e, herror, haction⟩ | haction | ⟨haction, hkeeps⟩ :=
    updateWebhook_cases params row awaited db x
  · rw [haction, herror]
    refine ⟨fun id hupdated => (by cases hupdated), ?_⟩
    rintro answer hok
    cases hok
  · rw [haction]
    refine ⟨fun id hupdated => (by cases hupdated), ?_⟩
    intro answer _ _
    exact ⟨_, List.mem_cons_self, hid⟩
  · rw [haction]
    constructor
    · intro id hupdated
      injection hupdated with hrow henabled hawaited
      have hoff : row.enabled = false := by
        cases hrow : row.enabled with
        | false => rfl
        | true => exact (hkeeps ⟨henabled, hrow⟩).elim
      obtain ⟨e, he, hlookedUp⟩ := hlooked hawaited
      rw [hrow, hoff] at hlookedUp
      exact ⟨e, he, hlookedUp⟩
    · intro answer _ henabled
      exact ⟨_, List.mem_cons_self, hid, henabled⟩

theorem webhookUpdate_follows (ctx : OpContext) (params : WebhookUpdateParams)
    (h : List HookEvent) :
  (webhookUpdate ctx params).Follows LooksUp (fun h' _ => Reported params h')
    (fun _ _ => True) h
  := by
  unfold webhookUpdate
  split
  · apply Fallible.Follows.atomic
    intro w x
    dsimp only
    split
    · exact ⟨fun id hupdated => (by cases hupdated), trivial⟩
    · rename_i row hrow
      obtain ⟨hrule, hpost⟩ := @updateWebhook_follows _ _
        (getScopedSubscription_mem hrow).2 false h (fun hawaited => by cases hawaited) w.world.db x x.now
      refine ⟨hrule, ?_⟩
      split
      · rename_i answer hanswer
        exact hpost answer hanswer
      · trivial
  · apply Fallible.Follows.bind
    apply Fallible.Follows.atomic
    intro w x
    dsimp only
    split
    · exact ⟨fun id hupdated => (by cases hupdated), trivial⟩
    · rename_i row hrow
      refine ⟨fun id hupdated => (by cases hupdated), ?_⟩
      apply Fallible.Follows.atomic
      intro w' x'
      dsimp only [webhookUpdateTx]
      split
      · exact ⟨fun id hupdated => (by cases hupdated), trivial⟩
      · obtain ⟨hrule, hpost⟩ := @updateWebhook_follows _ _ (getScopedSubscription_mem hrow).2
          true (⟨x.now, .lookedUp row.id row.enabled⟩ :: h)
          (fun _ => ⟨_, List.mem_cons_self, rfl⟩) w'.world.db x' x'.now
        refine ⟨hrule, ?_⟩
        split
        · rename_i answer hanswer
          exact hpost answer hanswer
        · trivial

/-- What a finished request has reported. -/
def HookRequest.HasReported (request : HookRequest) (h : List HookEvent)
    (r : Except OpError HookAnswer) : Prop :=
  ∀ ctx params answer, request = .webhookUpdate ctx params → r = .ok answer → Reported params h

/-- The other requests commit no such update. -/
theorem HookRequest.program_looksUp_of_needs (sha256 : Bytes → Text) (toLowerCase : Text → Text)
    {request : HookRequest} (hneeds : request.Needs ⟨fun _ _ => True, False⟩)
    (h : List HookEvent) :
  (request.program sha256 toLowerCase).run.Follows LooksUp (fun _ _ => True) h
  := by
  apply HookRequest.follows_of_needs sha256 toLowerCase _ hneeds
  intro x db action db' hstep h time id hupdated
  exact (hstep.not_updated id _ hupdated).elim

theorem HookRequest.program_looksUp (sha256 : Bytes → Text) (toLowerCase : Text → Text)
    (request : HookRequest) (h : List HookEvent) :
  (request.program sha256 toLowerCase).run.Follows LooksUp request.HasReported h
  := by
  cases request with
  | webhookUpdate ctx params =>
      have hbind : (HookRequest.program sha256 toLowerCase (.webhookUpdate ctx params)).Follows
          LooksUp (fun h' _ => Reported params h') (fun _ _ => True) h := by
        apply Fallible.Follows.bind
        apply Fallible.Follows.mono _ _ (webhookUpdate_follows ctx params h)
        · exact fun _ _ hpost => Fallible.Follows.pure hpost
        · exact fun _ _ _ => trivial
      apply Prog.Follows.mono _ hbind
      rintro h' r hpost ctx' params' answer hrequest rfl
      cases hrequest
      exact hpost
  | processDueWebhooks opts =>
      refine Prog.Follows.mono ?_ (HookRequest.program_looksUp_of_needs sha256 toLowerCase ?_ h)
      · intro h' r _ ctx' params' answer hrequest
        cases hrequest
      · exact fun _ => trivial
  | _ =>
      refine Prog.Follows.mono ?_ (HookRequest.program_looksUp_of_needs sha256 toLowerCase ?_ h)
      · intro h' r _ ctx' params' answer hrequest
        cases hrequest
      · trivial

/-! ### Disabled subscriptions stay disabled -/

section

variable {J : HookPerms} {x : HookInput} {db db' : Db} {action : HookAction} {id : Text}

/-- An update that was asked to disable leaves the subscription disabled, when an awaited
lookup has not become stale. -/
theorem HookStep.disabled_of_asks (h : HookStep J x db action db')
    (hkey : Keyed SubscriptionRow.id db.subscriptions) (hasks : action.AsksDisable id)
    (hstale : action = .updated id (some false) true → Disabled db id) :
  Disabled db' id
  := by
  intro s' hs' hid
  cases h with
  | disabled params pathPrefix row disables =>
      obtain rfl : row.id = id := hasks
      obtain ⟨u, -, rfl⟩ := List.mem_map.mp hs'
      by_cases hu : u.id = row.id
      · rw [if_pos hu]
        rfl
      · rw [if_neg hu] at hid
        exact (hu hid).elim
  | updated params pathPrefix row awaited keeps found =>
      obtain ⟨rfl, henabled⟩ := hasks
      have hstep := HookStep.updated (J := J) (x := x) params pathPrefix row awaited keeps found
      obtain ⟨s, hs, hsub⟩ | ⟨-, hcreated⟩ := hstep.subscription_cases hs'
      · have hsid : s.id = row.id := hsub.id.symm.trans hid
        have hoff : s.enabled = false := by
          cases awaited with
          | true => exact hstale (by rw [henabled]) s hs hsid
          | false =>
              obtain rfl := hkey.eq_of_mem hs found hsid
              cases hon : s.enabled with
              | false => rfl
              | true => exact (keeps ⟨henabled, hon⟩).elim
        obtain hsame | ⟨hfalse, -⟩ | ⟨-, _, htrue⟩ := hsub.enabled
        · rw [hsame, hoff]
        · exact hfalse
        · simp [henabled] at htrue
      · cases hcreated
  | _ => exact hasks.elim

/-- A disabled subscription stays disabled unless the step enables it. -/
theorem HookStep.disabled_stays (h : HookStep J x db action db') (hoff : Disabled db id) :
  Disabled db' id ∨ action.Enables id
  := by
  by_cases henables : action.Enables id
  · exact .inr henables
  · left
    intro s' hs' hid
    obtain ⟨s, hs, hsub⟩ | ⟨-, rfl⟩ := h.subscription_cases hs'
    · have hsid : s.id = id := hsub.id.symm.trans hid
      obtain hsame | ⟨hfalse, -⟩ | ⟨-, awaited, rfl⟩ := hsub.enabled
      · rw [hsame]
        exact hoff s hs hsid
      · exact hfalse
      · exact (henables ⟨hsid, rfl⟩).elim
    · exact (henables hid).elim

end

/-! ### Runs -/

/-- The invariant of a run: since an update that was asked to disable has committed, the
subscription is disabled or was enabled again. -/
structure DisableInv (cf : HookConfig) : Prop where
  hooks : HookInv cf.state.world.db
  since : ∀ later t earlier id, cf.trace = later ++ t :: earlier → t.2.action.AsksDisable id →
    Disabled cf.state.world.db id ∨ ∃ e ∈ later, e.2.action.Enables id

theorem DisableInv.step {J : HookPerms} {x : HookInput} {cf : HookConfig} {i : Nat}
    {r : HookEvent × HookWorld} (h : HookTick J x cf.state r) (hlooks : LooksUp (cf.own i) r.1)
    (hstill : StillDisabled cf i r) (hinv : DisableInv cf) :
  DisableInv (cf.push i r)
  := by
  refine ⟨hinv.hooks.step h.step, ?_⟩
  intro later t earlier id htrace hasks
  rw [Conf.push_trace] at htrace
  cases later with
  | nil =>
      simp only [List.nil_append, List.cons.injEq] at htrace
      obtain ⟨rfl, rfl⟩ := htrace
      left
      apply h.step.disabled_of_asks hinv.hooks.subscriptionKey hasks
      intro hupdated
      obtain ⟨e, he, hlooked⟩ := hlooks id hupdated
      apply hstill id
      · rw [hupdated]
        rfl
      · exact ⟨(i, e), Conf.mem_own.mp he, rfl, hlooked⟩
  | cons u later =>
      simp only [List.cons_append, List.cons.injEq] at htrace
      obtain ⟨rfl, htrace⟩ := htrace
      obtain hoff | ⟨e, he, henables⟩ := hinv.since later t earlier id htrace hasks
      · obtain hoff | henables := h.step.disabled_stays hoff
        · exact .inl hoff
        · exact .inr ⟨_, List.mem_cons_self, henables⟩
      · exact .inr ⟨e, List.mem_cons_of_mem _ he, henables⟩

/-- In every run of the webhook system in which no subscription that a request to disable
has found disabled is enabled by the time the request commits, disabling is effective. -/
theorem disable_effective_of_stillDisabled (sha256 : Bytes → Text) (toLowerCase : Text → Text)
    (w : HookWorld) (hw : HookInv w.world.db) (requests : List HookRequest)
    (sched : List (Nat × HookInput))
    (hstill : (hookPool sha256 toLowerCase w requests).Admits StillDisabled sched) :
  DisableEffective requests ((hookPool sha256 toLowerCase w requests).run sched)
  := by
  have hfollows : ∀ (i : Nat) p, (hookPool sha256 toLowerCase w requests).procs[i]? = some p →
      p.Follows LooksUp (fun h r => ∀ request, requests[i]? = some request →
          request.HasReported h r)
        ((hookPool sha256 toLowerCase w requests).conf.own i) := by
    intro i p hp
    simp only [hookPool, List.getElem?_map, Option.map_eq_some_iff] at hp
    obtain ⟨request, hrequest, rfl⟩ := hp
    apply Prog.Follows.mono _ (request.program_looksUp sha256 toLowerCase _)
    intro h r hreported request' hrequest'
    obtain rfl : request = request' := Option.some.inj (hrequest.symm.trans hrequest')
    exact hreported
  have hsteps := hookPool_steps sha256 toLowerCase w requests sched
  have hlooks := (Pool.run_follows (R := fun _ => LooksUp) hfollows sched).1
  have hinv : DisableInv ((hookPool sha256 toLowerCase w requests).run sched).conf := by
    apply ((Pool.admits_and.mpr ⟨hsteps, Pool.admits_and.mpr ⟨hlooks, hstill⟩⟩).inv _ _).2
    · rintro cf i r ⟨⟨x, htick⟩, hrule, hstill⟩ hinv
      exact hinv.step htick hrule hstill
    · refine ⟨hw, ?_⟩
      intro later t earlier id htrace
      simp [hookPool] at htrace
  intro i ctx params answer hrequest henabled hresult
  have hreported := Pool.result_follows (R := fun _ => LooksUp) hfollows hresult
  obtain ⟨ev, hev, hasks⟩ := hreported _ hrequest ctx params answer rfl rfl henabled
  obtain ⟨earlier', later, htrace⟩ := List.append_of_mem (Conf.mem_own.mp hev)
  refine ⟨earlier', ev, later, htrace, hasks, ?_⟩
  obtain hoff | henables := hinv.since _ _ _ params.id htrace hasks
  · exact .inl (hinv.hooks.off hoff)
  · exact .inr henables

/-- The sample subscription, disabled. -/
def sampleDisabledWorld : HookWorld where
  clock := 0
  world :=
    { World.empty with db :=
      { Db.empty with subscriptions :=
        [{ sampleSubscription with
          enabled := false
          disabledReason := some .manual
          disabledAt := some 0 }] } }

/-- A request to change the URL of the sample subscription and to disable it, and a request
to enable it. -/
def sampleToggles : List HookRequest :=
  [.webhookUpdate sampleContext
      { id := "sub".toList, url := some "https://example.org".toList, enabled := some false },
    .webhookUpdate sampleContext { id := "sub".toList, enabled := some true }]

theorem disable_effective_sampleToggles :
  ((hookPool sampleHash id sampleDisabledWorld sampleToggles).run
      ([1, 0, 0].map (·, sampleHookInput 1 200))).conf.state.world.db.subscriptions.map
        (·.enabled) = [false] ∧
    DisableEffective sampleToggles ((hookPool sampleHash id sampleDisabledWorld sampleToggles).run
      ([1, 0, 0].map (·, sampleHookInput 1 200)))
  := by
  refine ⟨by decide +kernel, ?_⟩
  apply disable_effective_of_stillDisabled
  · exact ⟨⟨by decide, by decide⟩, by decide, by decide, by decide⟩
  · decide +kernel

/-- The first request of `sampleToggles` looks the subscription up while it is disabled, and
commits after the second has enabled it. -/
def sampleToggleRace : Pool HookWorld HookInput HookEvent (Except OpError HookAnswer) :=
  (hookPool sampleHash id sampleDisabledWorld sampleToggles).run
    ([0, 1, 0].map (·, sampleHookInput 1 200))

theorem not_disable_effective_sampleToggles :
  sampleToggleRace.result? 0 = some (.ok (.webhook (.webhook
      { sampleSubscription with url := "https://example.org".toList, updatedAt := 1 }))) ∧
    ¬ DisableEffective sampleToggles sampleToggleRace
  := by
  have hresult : sampleToggleRace.result? 0 = some (.ok (.webhook (.webhook
      { sampleSubscription with url := "https://example.org".toList, updatedAt := 1 }))) := by
    decide +kernel
  have htrace : sampleToggleRace.conf.trace =
      [(0, ⟨1, .updated "sub".toList (some false) true⟩),
        (1, ⟨1, .updated "sub".toList (some true) false⟩),
        (0, ⟨1, .lookedUp "sub".toList false⟩)] := by
    decide +kernel
  have hon : ¬ Disabled sampleToggleRace.conf.state.world.db "sub".toList := by
    decide +kernel
  refine ⟨hresult, ?_⟩
  intro h
  obtain ⟨later, ev, earlier, hsplit, hasks, heffect⟩ := h 0 _ _ _ rfl rfl hresult
  rw [htrace] at hsplit
  match later, hsplit with
  | [], _ =>
      obtain hoff | ⟨e, he, -⟩ := heffect
      · exact hon hoff.disabled
      · cases he
  | [_], hsplit => simp at hsplit
  | [_, _], hsplit =>
      simp only [List.cons_append, List.nil_append, List.cons.injEq, Prod.mk.injEq] at hsplit
      obtain ⟨-, -, ⟨-, rfl⟩, -⟩ := hsplit
      exact hasks
  | _ :: _ :: _ :: _, hsplit => simp at hsplit

end AgentFs

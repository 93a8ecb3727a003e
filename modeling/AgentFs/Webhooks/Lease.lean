import AgentFs.Webhooks.Rows

/-!
# Lease fencing

A worker records the result of a claim, or defers it, only behind the fence of the lease
that the claim has set.  Under a clock that strictly increases no two claims set the same
lease, so a claim that was followed by another claim, a redelivery or a disable of its row
finds no row behind its fence, and settling it changes nothing.
-/

namespace AgentFs

open Async Tabular

/-- The event takes the row of the claim away from it: a claim or a redelivery of the same
row, or a disable of its subscription. -/
def HookEvent.Supersedes (claim : ClaimedDelivery) (ev : HookEvent) : Prop :=
  match ev.action with
  | .claimed claims => ∃ c ∈ claims, c.id = claim.id
  | .redelivered id => id = claim.id
  | action => action.Disables claim.subscriptionId

/-- The claim was made, and superseded by a later event. -/
def Superseded (trace : List (Nat × HookEvent)) (claim : ClaimedDelivery) : Prop :=
  ∃ later t earlier, trace = later ++ t :: earlier ∧ t.2.Claims claim ∧
    ∃ e ∈ later, e.2.Supersedes claim

/-- A claim is superseded after an event when it was before, or when the event supersedes a
claim made before. -/
theorem Superseded.cons_cases {trace : List (Nat × HookEvent)} {t : Nat × HookEvent}
    {claim : ClaimedDelivery} (h : Superseded (t :: trace) claim) :
  Superseded trace claim ∨ ((∃ e ∈ trace, e.2.Claims claim) ∧ t.2.Supersedes claim)
  := by
  obtain ⟨later, u, earlier, htrace, hclaims, e, he, hsupersedes⟩ := h
  cases later with
  | nil => cases he
  | cons v later =>
      simp only [List.cons_append, List.cons.injEq] at htrace
      obtain ⟨rfl, rfl⟩ := htrace
      obtain rfl | he := List.mem_cons.mp he
      · exact .inr ⟨⟨u, by simp, hclaims⟩, hsupersedes⟩
      · exact .inl ⟨later, u, earlier, rfl, hclaims, e, he, hsupersedes⟩

/-- A superseded claim was made. -/
theorem Superseded.claimed {trace : List (Nat × HookEvent)} {claim : ClaimedDelivery}
    (h : Superseded trace claim) :
  ∃ t ∈ trace, t.2.Claims claim
  := by
  obtain ⟨later, t, earlier, rfl, hclaims, -⟩ := h
  exact ⟨t, by simp, hclaims⟩

/-- The invariant of a run under a strictly increasing clock. -/
structure LeaseInv (cf : HookConfig) : Prop where
  keys : cf.state.world.db.DeliveryKeys
  past : ∀ t ∈ cf.trace, t.2.time ≤ cf.state.clock
  lease : ∀ t ∈ cf.trace, ∀ claim, t.2.Claims claim → claim.leaseUntil = t.2.time + leaseMs
  /-- The row behind the fence of a claim is as the claim has left it. -/
  owner : ∀ t ∈ cf.trace, ∀ claim, t.2.Claims claim → ∀ d ∈ cf.state.world.db.deliveries,
    claim.Fences d → d.subscriptionId = claim.subscriptionId ∧ d.attempts = claim.attempts
  stale : ∀ claim, Superseded cf.trace claim → ∀ d ∈ cf.state.world.db.deliveries,
    ¬ claim.Fences d

section

variable {J : HookPerms} {x : HookInput} {db db' : Db}
  {action : HookAction}

/-- A claim of a step carries the lease of the step and describes the row it has leased. -/
theorem HookStep.claimed_row {claims : List ClaimedDelivery}
    (h : HookStep J x db (.claimed claims) db') {claim : ClaimedDelivery}
    (hclaim : claim ∈ claims) :
  ∃ d ∈ db.deliveries, claim = (d.leased x.now).toClaim (x.now + leaseMs)
  := by
  cases h with
  | claimed batch =>
      obtain ⟨e, he, rfl⟩ := List.mem_map.mp hclaim
      obtain ⟨d, hd, rfl⟩ := List.mem_map.mp he
      exact ⟨d, List.mem_of_mem_filter hd, rfl⟩

/-- The row of a redelivery was not being sent. -/
theorem HookStep.redelivered_row {id : Text} (h : HookStep J x db (.redelivered id) db')
    (hkeys : db.DeliveryKeys) {d : DeliveryRow} (hd : d ∈ db.deliveries) (hid : d.id = id) :
  d.Redeliverable x.now
  := by
  cases h with
  | redelivered e s delivery subscription owner enabled redeliverable =>
      obtain ⟨e', he', heq, hredeliverable⟩ := redeliverable
      obtain rfl := hkeys.id.eq_of_mem he' hd (heq.trans hid.symm)
      exact hredeliverable

/-- An event that supersedes a claim touches the row behind its fence. -/
theorem HookStep.touches_of_supersedes (h : HookStep J x db action db')
    (hkeys : db.DeliveryKeys) {claim : ClaimedDelivery} {d : DeliveryRow}
    (hd : d ∈ db.deliveries) (hfences : claim.Fences d)
    (howner : d.subscriptionId = claim.subscriptionId) {time : Nat}
    (hsupersedes : (HookEvent.mk time action).Supersedes claim) :
  action.Touches x.now d
  := by
  cases action with
  | claimed claims =>
      obtain ⟨c, hc, hid⟩ := hsupersedes
      exact .inr ⟨c, hc, hid.trans hfences.1.symm⟩
  | redelivered id =>
      have hid : d.id = id := hfences.1.trans (Eq.symm hsupersedes)
      exact .inr ⟨hid, h.redelivered_row hkeys hd hid⟩
  | _ =>
      left
      rw [howner]
      exact ⟨hsupersedes, hfences.2.1⟩

/-- A step leaves only rows behind the fence of an earlier claim that were there before and
that it does not touch. -/
theorem HookStep.fenced_row (h : HookStep J x db action db') (hkeys : db.DeliveryKeys)
    {claim : ClaimedDelivery} (hlease : claim.leaseUntil < x.now + leaseMs) {d' : DeliveryRow}
    (hd' : d' ∈ db'.deliveries) (hfences : claim.Fences d') :
  d' ∈ db.deliveries ∧ ¬ action.Touches x.now d'
  := by
  have hsome := hfences.2.2
  obtain ⟨d, hd, hstep⟩ | ⟨hfresh, -⟩ := h.row_cases hkeys hd'
  · cases hstep with
    | same untouched => exact ⟨hd, untouched⟩
    | leased claimed pending =>
        simp only [DeliveryRow.leased, Option.some.injEq] at hsome
        omega
    | requeued redeliverable => simp [DeliveryRow.requeue] at hsome
    | disabled disables pending => simp [DeliveryRow.failDisabled] at hsome
    | deferred fences columns attempts status lease =>
        rw [lease] at hsome
        cases hsome
    | recorded fences columns attempts lease status =>
        rw [lease] at hsome
        cases hsome
  · rw [hfresh.leaseUntil] at hsome
    cases hsome

/-- The row behind the fence of a claim just made is the one it describes. -/
theorem HookStep.claimed_owner {claims : List ClaimedDelivery}
    (h : HookStep J x db (.claimed claims) db') (hkeys : db.DeliveryKeys)
    {claim : ClaimedDelivery} (hclaim : claim ∈ claims) {d' : DeliveryRow}
    (hd' : d' ∈ db'.deliveries) (hid : d'.id = claim.id) :
  d'.subscriptionId = claim.subscriptionId ∧ d'.attempts = claim.attempts
  := by
  obtain ⟨e, he, rfl⟩ := h.claimed_row hclaim
  obtain ⟨d, hd, hstep⟩ | ⟨-, mutation, heq⟩ := h.row_cases hkeys hd'
  · have hdid : d.id = e.id := hstep.columns.id.symm.trans hid
    obtain rfl := hkeys.id.eq_of_mem hd he hdid
    cases hstep with
    | same untouched => exact (untouched (.inr ⟨_, hclaim, rfl⟩)).elim
    | leased claimed pending => exact ⟨rfl, rfl⟩
    | disabled disables pending => exact disables.elim
  · cases heq

/-- Recording a result behind a fence that holds nowhere changes nothing. -/
theorem recordResult_of_not_fences (opts : WebhookTickOptions) {claim : ClaimedDelivery}
    (x : HookInput) (hnone : ∀ g, updateFenced claim g db = none) :
  recordResult opts claim x db = ⟨none, false, db⟩
  := by
  unfold recordResult
  dsimp only
  split
  · rw [hnone]
  · split
    · rw [hnone]
    · split
      · rw [hnone]
      · rw [hnone]

theorem updateFenced_of_not_fences {claim : ClaimedDelivery}
    (hfence : ∀ d ∈ db.deliveries, ¬ claim.Fences d) (g : DeliveryRow → DeliveryRow) :
  updateFenced claim g db = none
  := by
  unfold updateFenced
  rw [if_neg]
  rintro ⟨d, hd, hfences⟩
  exact hfence d hd hfences

/-- Settling a claim whose fence holds nowhere changes nothing. -/
theorem HookStep.settles_eq (h : HookStep J x db action db') {claim : ClaimedDelivery}
    (hsettles : action.Settles claim) (hfence : ∀ d ∈ db.deliveries, ¬ claim.Fences d) :
  db' = db
  := by
  have hnone := updateFenced_of_not_fences hfence
  cases h with
  | deferred opts c error job =>
      obtain rfl : c = claim := hsettles
      simp [deferClaim, hnone]
  | recorded opts c job =>
      obtain rfl : c = claim := hsettles
      rw [recordResult_of_not_fences opts x hnone]
  | _ => exact hsettles.elim

end

/-- The invariant is kept by every step that moves the clock forward. -/
theorem LeaseInv.step {J : HookPerms} {x : HookInput}
    {cf : HookConfig} {i : Nat} {r : HookEvent × HookWorld} (h : HookTick J x cf.state r)
    (hclock : cf.state.clock < r.2.clock) (hinv : LeaseInv cf) :
  LeaseInv (cf.push i r)
  := by
  have hnow : cf.state.clock < x.now := h.clock ▸ hclock
  have hold : ∀ t ∈ cf.trace, ∀ claim, t.2.Claims claim → claim.leaseUntil < x.now + leaseMs := by
    intro t ht claim hclaims
    have hlease := hinv.lease t ht claim hclaims
    have hpast := hinv.past t ht
    omega
  have hnew : ∀ claim, r.1.Claims claim → claim.leaseUntil = x.now + leaseMs := by
    rintro claim ⟨claims, haction, hclaim⟩
    have hstep := h.step
    rw [haction] at hstep
    obtain ⟨d, -, rfl⟩ := hstep.claimed_row hclaim
    rfl
  constructor
  · exact h.step.keys hinv.keys
  · intro t ht
    rw [Conf.push_state, h.clock]
    obtain rfl | ht := List.mem_cons.mp ht
    · exact h.time.le
    · exact (hinv.past t ht).trans hnow.le
  · intro t ht claim hclaims
    obtain rfl | ht := List.mem_cons.mp ht
    · rw [h.time]
      exact hnew claim hclaims
    · exact hinv.lease t ht claim hclaims
  · intro t ht claim hclaims d' hd' hfences
    obtain rfl | ht := List.mem_cons.mp ht
    · obtain ⟨claims, haction, hclaim⟩ := hclaims
      have hstep := h.step
      rw [haction] at hstep
      exact hstep.claimed_owner hinv.keys hclaim hd' hfences.1
    · obtain ⟨hd, -⟩ := h.step.fenced_row hinv.keys (hold t ht claim hclaims) hd' hfences
      exact hinv.owner t ht claim hclaims d' hd hfences
  · intro claim hsuperseded d' hd' hfences
    obtain hbefore | ⟨⟨t, ht, hclaims⟩, hsupersedes⟩ := hsuperseded.cons_cases
    · obtain ⟨t, ht, hclaims⟩ := hbefore.claimed
      obtain ⟨hd, -⟩ := h.step.fenced_row hinv.keys (hold t ht claim hclaims) hd' hfences
      exact hinv.stale claim hbefore d' hd hfences
    · obtain ⟨hd, huntouched⟩ := h.step.fenced_row hinv.keys (hold t ht claim hclaims) hd' hfences
      obtain ⟨howner, -⟩ := hinv.owner t ht claim hclaims d' hd hfences
      exact huntouched (h.step.touches_of_supersedes hinv.keys hd hfences howner hsupersedes)

section

variable (sha256 : Bytes → Text) (toLowerCase : Text → Text) (w : HookWorld)
  (requests : List HookRequest) (sched : List (Nat × HookInput))

/-- The clock moves forward at every step of the run. -/
def Ticks : StepProp HookWorld HookEvent := fun cf _ r => cf.state.clock < r.2.clock

instance (cf : HookConfig) (i : Nat) (r : HookEvent × HookWorld) : Decidable (Ticks cf i r) :=
  inferInstanceAs (Decidable (_ < _))

/-- The invariant holds before every step of a run. -/
theorem lease_run (hkeys : w.world.db.DeliveryKeys)
    (hclock : (hookPool sha256 toLowerCase w requests).Admits Ticks sched) :
  (hookPool sha256 toLowerCase w requests).Admits (fun cf _ _ => LeaseInv cf) sched ∧
    LeaseInv ((hookPool sha256 toLowerCase w requests).run sched).conf
  := by
  have hsteps := hookPool_steps sha256 toLowerCase w requests sched
  apply (Pool.admits_and.mpr ⟨hsteps, hclock⟩).inv
  · rintro cf i r ⟨⟨x, htick⟩, hlt⟩ hinv
    exact hinv.step htick hlt
  · exact ⟨hkeys, by simp [hookPool], by simp [hookPool], by simp [hookPool], by
      rintro claim ⟨later, t, earlier, htrace, -⟩
      simp [hookPool] at htrace⟩

/-- In every run of the webhook system under a strictly increasing clock, in any order of
its segments: whoever records the result of a claim, or defers it, has made the claim
before, and changes nothing in the database once a later claim, disable or redelivery of the
row has happened. -/
theorem stale_claim_changes_nothing (hkeys : w.world.db.DeliveryKeys)
    (hclock : (hookPool sha256 toLowerCase w requests).Admits Ticks sched) :
  (hookPool sha256 toLowerCase w requests).Admits (fun cf _ r =>
    ∀ claim, r.1.action.Settles claim →
      (∃ t ∈ cf.trace, t.2.Claims claim) ∧
        (Superseded cf.trace claim → r.2.world.db = cf.state.world.db)) sched
  := by
  have hsteps := hookPool_steps sha256 toLowerCase w requests sched
  have hsettles := hookPool_settles sha256 toLowerCase w requests sched
  have hinv := (lease_run sha256 toLowerCase w requests sched hkeys hclock).1
  apply Pool.Admits.mono _ (Pool.admits_and.mpr ⟨hsteps, Pool.admits_and.mpr ⟨hsettles, hinv⟩⟩)
  rintro cf i r ⟨⟨x, htick⟩, hclaimed, hinv⟩ claim hclaim
  refine ⟨hclaimed claim hclaim, ?_⟩
  intro hsuperseded
  exact htick.step.settles_eq hclaim (hinv.stale claim hsuperseded)

end

/-- Two ticks of the worker. -/
def sampleTicks : List HookRequest := [.processDueWebhooks {}, .processDueWebhooks {}]

/-- The send of the first tick returns after its lease has expired and the second tick has
claimed the row again. -/
def sampleStaleSchedule : List (Nat × HookInput) :=
  [(0, sampleHookInput 1 200), (1, sampleHookInput 60002 200), (0, sampleHookInput 60003 200),
    (1, sampleHookInput 60004 200)]

theorem stale_claim_changes_nothing_sampleTicks :
  (((hookPool sampleHash id sampleHookWorld sampleTicks).run
      sampleStaleSchedule).conf.own 0).head? =
    some ⟨60003, .recorded ⟨"delivery".toList, "sub".toList, "event".toList, [], 1, 60001⟩
      none false⟩ ∧
    (hookPool sampleHash id sampleHookWorld sampleTicks).Admits (fun cf _ r =>
      ∀ claim, r.1.action.Settles claim →
        (∃ t ∈ cf.trace, t.2.Claims claim) ∧
          (Superseded cf.trace claim → r.2.world.db = cf.state.world.db)) sampleStaleSchedule
  := by
  constructor
  · decide +kernel
  · exact stale_claim_changes_nothing sampleHash id sampleHookWorld sampleTicks
      sampleStaleSchedule ⟨by decide, by decide⟩ (by decide +kernel)

end AgentFs

import Mathlib.Data.Int.Interval
import AgentFs.Webhooks.Lease

/-!
# Bounded retries

A claim counts an attempt before the send, a deferral gives it back, and a redelivery keeps
the count.  Behind the fence of a claim the row still carries the number the claim has seen,
so the numbers of the attempts that are to be retried strictly increase along every run, and
there are no more of them than the schedule has delays.
-/

namespace AgentFs

open Async Tabular

/-- The attempt number of a result that is to be retried, for one row. -/
def HookAction.retry (id : Text) : HookAction → Option Int
  | .recorded claim (some .retrying) _ => if claim.id = id then some claim.attempts else none
  | _ => none

/-- The attempt numbers of the retries of a row, newest first. -/
def retries (trace : List (Nat × HookEvent)) (id : Text) : List Int :=
  trace.filterMap (fun t => t.2.action.retry id)

/-- The claims of an action. -/
def HookAction.claims : HookAction → List ClaimedDelivery
  | .claimed claims => claims
  | _ => []

/-- The attempts of the row with the id. -/
def Db.attempts (db : Db) (id : Text) : Option Int :=
  (db.deliveries.find? (fun d => d.id = id)).map (·.attempts)

/-- The id of a row that a step inserts is new: no claim of the run so far carries it. -/
def NewDeliveryIds : StepProp HookWorld HookEvent := fun cf _ r =>
  ∀ d' ∈ r.2.world.db.deliveries, (∀ d ∈ cf.state.world.db.deliveries, d.id ≠ d'.id) →
    ∀ t ∈ cf.trace, ∀ claim ∈ t.2.action.claims, claim.id ≠ d'.id

instance (cf : HookConfig) (i : Nat) (r : HookEvent × HookWorld) :
    Decidable (NewDeliveryIds cf i r) :=
  inferInstanceAs (Decidable (∀ d' ∈ r.2.world.db.deliveries, _ → _))

theorem HookEvent.Claims.mem_claims {claim : ClaimedDelivery} {ev : HookEvent}
    (h : ev.Claims claim) :
  claim ∈ ev.action.claims
  := by
  obtain ⟨claims, haction, hclaim⟩ := h
  rw [haction]
  exact hclaim

/-- A retry comes from a recorded result. -/
theorem HookAction.retry_eq_some {id : Text} {action : HookAction} {a : Int} :
  action.retry id = some a ↔ ∃ claim disabled, action = .recorded claim (some .retrying) disabled ∧
    claim.id = id ∧ claim.attempts = a
  := by
  constructor
  · intro h
    unfold retry at h
    split at h
    · rename_i claim disabled
      split at h
      · rename_i hid
        cases h
        exact ⟨claim, disabled, rfl, hid, rfl⟩
      · cases h
    · cases h
  · rintro ⟨claim, disabled, rfl, rfl, rfl⟩
    simp [retry]

/-! ### One step -/

section

variable {J : HookPerms} {x : HookInput} {db db' : Db} {action : HookAction}

/-- A result is to be retried only behind the fence of its claim, and while the schedule has
a delay for it. -/
theorem HookStep.retrying {claim : ClaimedDelivery} {disabled : Bool}
    (h : HookStep J x db (.recorded claim (some .retrying) disabled) db') :
  (∃ opts, J.settles opts claim ∧ claim.attempts ≤ opts.schedule.length) ∧
    ∃ d ∈ db.deliveries, claim.Fences d
  := by
  generalize haction : HookAction.recorded claim (some .retrying) disabled = action at h
  cases h with
  | recorded opts c job =>
      injection haction with hclaim houtcome hdisabled
      subst hclaim
      constructor
      · refine ⟨opts, job, ?_⟩
        obtain ⟨hnone, -⟩ | ⟨outcome, g, u, hsome, -, -, hretry⟩ :=
          recordResult_cases opts claim x db
        · rw [hnone] at houtcome
          cases houtcome
        · rw [hsome] at houtcome
          exact hretry (Option.some.inj houtcome).symm
      · by_contra hfence
        push Not at hfence
        have hnone := recordResult_of_not_fences opts x (updateFenced_of_not_fences hfence)
        rw [hnone] at houtcome
        cases houtcome
  | _ => cases haction

/-- The claims of a step count one attempt each. -/
theorem HookStep.claims_attempts (h : HookStep J x db action db') {claim : ClaimedDelivery}
    (hclaim : claim ∈ action.claims) :
  ∃ d ∈ db.deliveries, d.id = claim.id ∧ claim.attempts = d.attempts + 1
  := by
  cases action with
  | claimed claims =>
      obtain ⟨d, hd, rfl⟩ := h.claimed_row hclaim
      exact ⟨d, hd, rfl, rfl⟩
  | _ => cases hclaim

/-- A row that is not pending changes its status only by a redelivery. -/
theorem RowStep.status_of_settled {d d' : DeliveryRow} (h : RowStep J x action d d')
    (hsettled : d.status ≠ .pending) :
  d'.status = d.status ∨ action = .redelivered d.id
  := by
  cases h with
  | same untouched => exact .inl rfl
  | leased claimed pending => exact (hsettled pending).elim
  | requeued redeliverable => exact .inr rfl
  | disabled disables pending => exact (hsettled pending).elim
  | deferred fences columns attempts status lease => exact (hsettled fences.2.1).elim
  | recorded fences columns attempts lease status => exact (hsettled fences.2.1).elim

/-- A row after a step comes from the row with its id before, or no row had its id. -/
theorem HookStep.row_origin (h : HookStep J x db action db') (hkeys : db.DeliveryKeys)
    {d' : DeliveryRow} (hd' : d' ∈ db'.deliveries) :
  (∃ d ∈ db.deliveries, RowStep J x action d d') ∨
    (d'.Fresh db ∧ ∀ d ∈ db.deliveries, d.id ≠ d'.id)
  := by
  obtain hold | ⟨hfresh, mutation, rfl⟩ := h.row_cases hkeys hd'
  · exact .inl hold
  · by_cases hmem : ∃ d ∈ db.deliveries, d.id = d'.id
    · obtain ⟨d, hd, hid⟩ := hmem
      obtain ⟨⟨new, hrows, -⟩, -, -⟩ := h.mutated_inserts
      have hd₂ : d ∈ db'.deliveries := by
        rw [hrows]
        exact List.mem_append_left _ hd
      obtain rfl := (h.keys hkeys).id.eq_of_mem hd₂ hd' hid
      exact .inl ⟨d, hd, .same (by simp [HookAction.Touches, HookAction.Disables])⟩
    · push Not at hmem
      exact .inr ⟨hfresh, hmem⟩

theorem Db.attempts_eq (hkeys : db.DeliveryKeys) {d : DeliveryRow} (hd : d ∈ db.deliveries)
    {id : Text} (hid : d.id = id) :
  db.attempts id = some d.attempts
  := by
  unfold Db.attempts
  rw [hkeys.id.find?_eq hd hid]
  rfl

end

/-! ### The count of attempts -/

/-- The row is behind the fence of a claim of the run. -/
def Owned (trace : List (Nat × HookEvent)) (d : DeliveryRow) : Prop :=
  ∃ t ∈ trace, ∃ claim, t.2.Claims claim ∧ claim.Fences d

theorem not_owned_of_lease {trace : List (Nat × HookEvent)} {d : DeliveryRow}
    (h : d.leaseUntil = none) :
  ¬ Owned trace d
  := by
  rintro ⟨t, -, claim, -, -, -, hlease⟩
  rw [h] at hlease
  cases hlease

/-- The count of attempts is above the number, strictly while a claim is out. -/
def Exceeds (trace : List (Nat × HookEvent)) (d : DeliveryRow) (a : Int) : Prop :=
  a ≤ d.attempts ∧ (Owned trace d → a < d.attempts)

theorem Exceeds.of_lease {trace : List (Nat × HookEvent)} {d : DeliveryRow} {a : Int}
    (ha : a ≤ d.attempts) (hlease : d.leaseUntil = none) :
  Exceeds trace d a
  := ⟨ha, fun howned => (not_owned_of_lease hlease howned).elim⟩

section

variable {J : HookPerms} {x : HookInput} {trace : List (Nat × HookEvent)} {t : Nat × HookEvent}
  {d d' : DeliveryRow}

/-- A step keeps the count of attempts above a number: only a deferral lowers it, and only
from behind the fence of its claim. -/
theorem RowStep.exceeds (h : RowStep J x t.2.action d d')
    (hsettles : ∀ claim, t.2.action.Settles claim → ∃ u ∈ trace, u.2.Claims claim) {a : Int}
    (ha : Exceeds trace d a) :
  Exceeds (t :: trace) d' a
  := by
  obtain ⟨hle, hlt⟩ := ha
  generalize haction : t.2.action = action at h hsettles
  cases h with
  | same untouched =>
      refine ⟨hle, ?_⟩
      rintro ⟨u, hu, claim, hclaims, hfences⟩
      obtain rfl | hu := List.mem_cons.mp hu
      · obtain ⟨claims, hclaimed, hclaim⟩ := hclaims
        rw [haction] at hclaimed
        subst hclaimed
        exact (untouched (.inr ⟨claim, hclaim, hfences.1.symm⟩)).elim
      · exact hlt ⟨u, hu, claim, hclaims, hfences⟩
  | leased claimed pending =>
      simp only [Exceeds, DeliveryRow.leased]
      omega
  | requeued redeliverable => exact .of_lease hle rfl
  | disabled disables pending => exact .of_lease hle rfl
  | @deferred claim _ _ fences columns attempts status lease =>
      obtain ⟨u, hu, hclaims⟩ := hsettles claim rfl
      have habove := hlt ⟨u, hu, claim, hclaims, fences⟩
      exact .of_lease (by omega) lease
  | recorded fences columns attempts lease status => exact .of_lease (attempts ▸ hle) lease

/-- Recording a result leaves the count of attempts and releases the lease. -/
theorem RowStep.recorded_row {claim : ClaimedDelivery} {outcome : Option Outcome}
    {disabled : Bool} (h : RowStep J x (.recorded claim outcome disabled) d d')
    (hfences : claim.Fences d) :
  d'.attempts = d.attempts ∧ d'.leaseUntil = none
  := by
  cases h with
  | same untouched => exact (untouched (.inr hfences)).elim
  | disabled disables pending => exact ⟨rfl, rfl⟩
  | recorded fences columns attempts lease status => exact ⟨attempts, lease⟩

end

/-! ### The invariant -/

/-- The invariant of a run whose ticks share a schedule. -/
structure RetryInv (schedule : List Nat) (cf : HookConfig) : Prop where
  lease : LeaseInv cf
  settled : ∀ t ∈ cf.trace, ∀ claim, t.2.action.Settles claim → ∃ u ∈ cf.trace, u.2.Claims claim
  exceeds : ∀ d ∈ cf.state.world.db.deliveries, ∀ a, a = 0 ∨ a ∈ retries cf.trace d.id →
    Exceeds cf.trace d a
  increasing : ∀ id, (retries cf.trace id).Pairwise (· > ·)
  bounded : ∀ id, ∀ a ∈ retries cf.trace id, 1 ≤ a ∧ a ≤ schedule.length

section

variable {J : HookPerms} {schedule : List Nat} {x : HookInput} {cf : HookConfig} {i : Nat}
  {r : HookEvent × HookWorld}

/-- The retries of a row after a step. -/
theorem mem_retries_push {id : Text} {a : Int} :
  a ∈ retries (cf.push i r).trace id ↔
    r.1.action.retry id = some a ∨ a ∈ retries cf.trace id
  := by
  unfold retries
  rw [Conf.push_trace, List.mem_filterMap, List.mem_filterMap]
  simp

/-- A result that is to be retried is behind the fence of its claim, on a row that carries its
attempt number. -/
theorem RetryInv.retry_row (hinv : RetryInv schedule cf) (h : HookTick J x cf.state r)
    (hJ : ∀ opts claim, J.settles opts claim → opts.schedule = schedule)
    (hsettles : ∀ claim, r.1.action.Settles claim → ∃ u ∈ cf.trace, u.2.Claims claim)
    {id : Text} {a : Int} (hretry : r.1.action.retry id = some a) :
  a ≤ schedule.length ∧ ∃ d ∈ cf.state.world.db.deliveries, d.id = id ∧ d.attempts = a ∧
    Owned cf.trace d ∧
    ∀ d', RowStep J x r.1.action d d' → d'.attempts = d.attempts ∧ d'.leaseUntil = none
  := by
  obtain ⟨claim, disabled, haction, rfl, rfl⟩ := HookAction.retry_eq_some.mp hretry
  have hstep := h.step
  rw [haction] at hstep hsettles
  obtain ⟨⟨opts, hopts, hle⟩, d, hd, hfences⟩ := hstep.retrying
  obtain ⟨u, hu, hclaims⟩ := hsettles claim rfl
  rw [hJ opts claim hopts] at hle
  refine ⟨hle, d, hd, hfences.1, ?_, ⟨u, hu, claim, hclaims, hfences⟩, ?_⟩
  · exact (hinv.lease.owner u hu claim hclaims d hd hfences).2
  · intro d' hrow
    rw [haction] at hrow
    exact hrow.recorded_row hfences

/-- The invariant is kept by every step that moves the clock forward and inserts rows under
new ids only. -/
theorem RetryInv.step (hinv : RetryInv schedule cf) (h : HookTick J x cf.state r)
    (hJ : ∀ opts claim, J.settles opts claim → opts.schedule = schedule)
    (hsettles : ∀ claim, r.1.action.Settles claim → ∃ u ∈ cf.trace, u.2.Claims claim)
    (hclock : cf.state.clock < r.2.clock) (hids : NewDeliveryIds cf i r) :
  RetryInv schedule (cf.push i r)
  := by
  have hkeys := hinv.lease.keys
  constructor
  · exact hinv.lease.step h hclock
  · intro t ht claim hclaim
    obtain rfl | ht := List.mem_cons.mp ht
    · obtain ⟨u, hu, hclaims⟩ := hsettles claim hclaim
      exact ⟨u, List.mem_cons_of_mem _ hu, hclaims⟩
    · obtain ⟨u, hu, hclaims⟩ := hinv.settled t ht claim hclaim
      exact ⟨u, List.mem_cons_of_mem _ hu, hclaims⟩
  · intro d' hd' a ha
    rw [mem_retries_push] at ha
    obtain ⟨d, hd, hrow⟩ | ⟨hfresh, hnew⟩ := h.step.row_origin hkeys hd'
    · have hid := hrow.columns.id
      rw [hid] at ha
      have hold : a = 0 ∨ a ∈ retries cf.trace d.id → Exceeds (cf.push i r).trace d' a :=
        fun ha => RowStep.exceeds (t := (i, r.1)) hrow hsettles (hinv.exceeds d hd a ha)
      obtain rfl | hretry | ha := ha
      · exact hold (.inl rfl)
      · obtain ⟨-, e, he, heid, rfl, -, hkept⟩ := hinv.retry_row h hJ hsettles hretry
        obtain rfl := hkeys.id.eq_of_mem he hd heid
        obtain ⟨hattempts, hlease⟩ := hkept d' hrow
        exact .of_lease hattempts.ge hlease
      · exact hold (.inr ha)
    · obtain rfl | hretry | ha := ha
      · exact .of_lease hfresh.attempts.ge hfresh.leaseUntil
      · obtain ⟨-, e, he, heid, -⟩ := hinv.retry_row h hJ hsettles hretry
        exact (hnew e he heid).elim
      · obtain ⟨t, ht, hretry⟩ := List.mem_filterMap.mp ha
        obtain ⟨claim, disabled, haction, hid, -⟩ := HookAction.retry_eq_some.mp hretry
        obtain ⟨u, hu, hclaims⟩ := hinv.settled t ht claim (by rw [haction]; rfl)
        exact (hids d' hd' hnew u hu claim hclaims.mem_claims hid).elim
  · intro id
    unfold retries
    rw [Conf.push_trace, List.filterMap_cons]
    split
    · exact hinv.increasing id
    · rename_i a hretry
      refine List.pairwise_cons.mpr ⟨?_, hinv.increasing id⟩
      intro b hb
      obtain ⟨-, d, hd, rfl, rfl, howned, -⟩ := hinv.retry_row h hJ hsettles hretry
      exact (hinv.exceeds d hd b (.inr hb)).2 howned
  · intro id a ha
    obtain hretry | ha := mem_retries_push.mp ha
    · obtain ⟨hle, d, hd, -, rfl, howned, -⟩ := hinv.retry_row h hJ hsettles hretry
      exact ⟨(hinv.exceeds d hd 0 (.inl rfl)).2 howned, hle⟩
    · exact hinv.bounded id a ha

end

/-! ### Runs -/

/-- A strictly decreasing list of numbers from `1` to `n` has at most `n` entries. -/
theorem length_le_of_pairwise_gt {l : List Int} {n : Nat} (hpairwise : l.Pairwise (· > ·))
    (hbounded : ∀ a ∈ l, 1 ≤ a ∧ a ≤ n) :
  l.length ≤ n
  := by
  have hnodup : l.Nodup := hpairwise.imp (fun h => h.ne')
  have hsubset : l.toFinset ⊆ Finset.Icc 1 (n : Int) := by
    intro a ha
    rw [List.mem_toFinset] at ha
    rw [Finset.mem_Icc]
    exact hbounded a ha
  have hcard := Finset.card_le_card hsubset
  rw [List.toFinset_card_of_nodup hnodup, Int.card_Icc] at hcard
  omega

/-- What one step does to the count of attempts and to settled rows: a claim counts one
attempt, a deferral sets the count back to what it was before its claim, and a row that is
delivered or failed changes its status only by a redelivery. -/
def CountsAttempts : StepProp HookWorld HookEvent := fun cf _ r =>
  (∀ claim ∈ r.1.action.claims,
      cf.state.world.db.attempts claim.id = some (claim.attempts - 1)) ∧
    (∀ claim, r.1.action = .deferred claim (some .deferred) →
      (∃ t ∈ cf.trace, claim ∈ t.2.action.claims) ∧
        r.2.world.db.attempts claim.id = some (claim.attempts - 1)) ∧
    ∀ d ∈ cf.state.world.db.deliveries, d.status ≠ .pending →
      ∀ d' ∈ r.2.world.db.deliveries, d'.id = d.id →
        d'.status = d.status ∨ r.1.action = .redelivered d.id

/-- A deferral that took effect has given back the attempt of its claim. -/
theorem HookStep.deferred_row {J : HookPerms} {x : HookInput} {db db' : Db}
    {claim : ClaimedDelivery} (h : HookStep J x db (.deferred claim (some .deferred)) db') :
  ∃ d ∈ db.deliveries, claim.Fences d ∧
    ∃ d' ∈ db'.deliveries, d'.id = d.id ∧ d'.attempts = d.attempts - 1
  := by
  generalize haction : HookAction.deferred claim (some .deferred) = action at h
  cases h with
  | deferred opts c error job =>
      injection haction with hclaim houtcome
      subst hclaim
      unfold deferClaim updateFenced at houtcome ⊢
      split at houtcome
      · cases houtcome
      · rename_i db₁ hsome
        split at hsome
        · rename_i hfenced
          obtain ⟨d, hd, hfences⟩ := hfenced
          cases hsome
          refine ⟨d, hd, hfences, _, List.mem_map_of_mem hd, ?_⟩
          rw [if_pos hfences]
          exact ⟨rfl, rfl⟩
        · cases hsome
  | _ => cases haction

theorem RetryInv.countsAttempts {J : HookPerms} {schedule : List Nat} {x : HookInput}
    {cf : HookConfig} {i : Nat} {r : HookEvent × HookWorld} (hinv : RetryInv schedule cf)
    (h : HookTick J x cf.state r)
    (hsettles : ∀ claim, r.1.action.Settles claim → ∃ u ∈ cf.trace, u.2.Claims claim) :
  CountsAttempts cf i r
  := by
  have hkeys := hinv.lease.keys
  refine ⟨?_, ?_, ?_⟩
  · intro claim hclaim
    obtain ⟨d, hd, hid, hattempts⟩ := h.step.claims_attempts hclaim
    rw [Db.attempts_eq hkeys hd hid, hattempts, Int.add_sub_cancel]
  · intro claim haction
    have hstep := h.step
    rw [haction] at hstep
    obtain ⟨d, hd, hfences, d', hd', hid, hattempts⟩ := hstep.deferred_row
    obtain ⟨u, hu, hclaims⟩ := hsettles claim (by rw [haction]; rfl)
    refine ⟨⟨u, hu, hclaims.mem_claims⟩, ?_⟩
    obtain ⟨-, howner⟩ := hinv.lease.owner u hu claim hclaims d hd hfences
    rw [Db.attempts_eq (h.step.keys hkeys) hd' (hid.trans hfences.1), hattempts, howner]
  · intro d hd hsettled d' hd' hid
    obtain ⟨e, he, hrow⟩ | ⟨-, hnew⟩ := h.step.row_origin hkeys hd'
    · obtain rfl := hkeys.id.eq_of_mem he hd (hrow.columns.id.symm.trans hid)
      exact hrow.status_of_settled hsettled
    · exact (hnew d hd hid.symm).elim

/-- In every run of the webhook system under a strictly increasing clock whose ticks share a
schedule and whose random row ids are new, in any order of its segments: the attempt numbers
of the retries of every row strictly increase, each of them is at most the length of the
schedule, and so is their number; no row has a negative count; and every step treats the
counts and the settled rows as `CountsAttempts` says. -/
theorem retry_bound (sha256 : Bytes → Text) (toLowerCase : Text → Text) (schedule : List Nat)
    (w : HookWorld) (hkeys : w.world.db.DeliveryKeys)
    (hattempts : ∀ d ∈ w.world.db.deliveries, 0 ≤ d.attempts) (requests : List HookRequest)
    (hschedule : ∀ opts, .processDueWebhooks opts ∈ requests → opts.schedule = schedule)
    (sched : List (Nat × HookInput))
    (hclock : (hookPool sha256 toLowerCase w requests).Admits Ticks sched)
    (hids : (hookPool sha256 toLowerCase w requests).Admits NewDeliveryIds sched) :
  (∀ id,
      (retries ((hookPool sha256 toLowerCase w requests).run sched).conf.trace id).Pairwise
        (· > ·) ∧
      (∀ a ∈ retries ((hookPool sha256 toLowerCase w requests).run sched).conf.trace id,
        1 ≤ a ∧ a ≤ schedule.length) ∧
      (retries ((hookPool sha256 toLowerCase w requests).run sched).conf.trace id).length ≤
        schedule.length) ∧
    (∀ d ∈ ((hookPool sha256 toLowerCase w requests).run sched).conf.state.world.db.deliveries,
      0 ≤ d.attempts) ∧
    (hookPool sha256 toLowerCase w requests).Admits CountsAttempts sched
  := by
  have hsteps := hookPool_steps sha256 toLowerCase w requests sched
  have hsettles := hookPool_settles sha256 toLowerCase w requests sched
  have hempty : RetryInv schedule (hookPool sha256 toLowerCase w requests).conf := by
    refine ⟨⟨hkeys, by simp [hookPool], by simp [hookPool], by simp [hookPool], ?_⟩,
      by simp [hookPool], ?_, by simp [hookPool, retries], by simp [hookPool, retries]⟩
    · intro claim hsuperseded
      obtain ⟨t, ht, -⟩ := hsuperseded.claimed
      cases ht
    · intro d hd a ha
      obtain rfl | ha := ha
      · refine ⟨hattempts d hd, ?_⟩
        rintro ⟨t, ht, -⟩
        cases ht
      · cases ha
  obtain ⟨hadmits, hinv⟩ := Pool.Admits.inv (I := RetryInv schedule)
    (fun cf i r hr hinv => RetryInv.step hinv hr.1.choose_spec
      (fun opts _ hopts => hschedule opts hopts) hr.2.1 hr.2.2.1 hr.2.2.2)
    (Pool.admits_and.mpr ⟨hsteps, Pool.admits_and.mpr ⟨hsettles,
      Pool.admits_and.mpr ⟨hclock, hids⟩⟩⟩) hempty
  refine ⟨?_, ?_, ?_⟩
  · intro id
    exact ⟨hinv.increasing id, hinv.bounded id,
      length_le_of_pairwise_gt (hinv.increasing id) (hinv.bounded id)⟩
  · intro d hd
    exact (hinv.exceeds d hd 0 (.inl rfl)).1
  · apply Pool.Admits.mono _ (Pool.admits_and.mpr ⟨hsteps, Pool.admits_and.mpr ⟨hsettles, hadmits⟩⟩)
    rintro cf i r ⟨⟨x, htick⟩, hclaimed, hinv⟩
    exact hinv.countsAttempts htick hclaimed

/-- Three ticks of the worker with a schedule of one delay. -/
def sampleRetries : List HookRequest :=
  [.processDueWebhooks { schedule := [5000] }, .processDueWebhooks { schedule := [5000] },
    .processDueWebhooks { schedule := [5000] }]

/-- The signing secret cannot be decrypted at the first tick, the receiver fails at the
others. -/
def sampleRetrySchedule : List (Nat × HookInput) :=
  [(0, { sampleHookInput 1 500 with decryptError := fun _ => some [] }),
    (0, sampleHookInput 2 500), (1, sampleHookInput 60010 500), (1, sampleHookInput 60011 500),
    (2, sampleHookInput 65020 500), (2, sampleHookInput 65021 500)]

theorem retry_bound_sampleRetries :
  retries ((hookPool sampleHash id sampleHookWorld sampleRetries).run
      sampleRetrySchedule).conf.trace "delivery".toList = [1] ∧
    ((hookPool sampleHash id sampleHookWorld sampleRetries).run
      sampleRetrySchedule).conf.state.world.db.deliveries.map (·.status) = [.failed] ∧
    (hookPool sampleHash id sampleHookWorld sampleRetries).Admits CountsAttempts
      sampleRetrySchedule
  := by
  refine ⟨by decide +kernel, by decide +kernel, ?_⟩
  exact (retry_bound sampleHash id [5000] sampleHookWorld ⟨by decide, by decide⟩ (by decide)
    sampleRetries (by simp [sampleRetries]) sampleRetrySchedule (by decide +kernel)
    (by decide +kernel)).2.2

end AgentFs

import AgentFs.Lib.OrderedMap
import AgentFs.Paths

/-!
# The cache of drive listings

`ops/glob-cache.ts`.  The maps `cache` and `pending` of the module, and the requests that
`getCachedDriveListing` has made, each at some point of its promise chain
`Promise.resolve().then(load).then(…).finally(…)`.  A step runs one callback of a chain, or one
of the two functions, none of which awaits anything; the outcome of a load and the clock are
inputs.
-/

namespace AgentFs

section

variable {Listing : Type}

/-- `listingKey`: the organization, the drive and the prefix, of which the text is the JSON. -/
structure ListingKey where
  orgId : Text
  driveId : Text
  listingPrefix : Text
  deriving DecidableEq, Repr

/-- The key is one of the drive. -/
def ListingKey.In (orgId driveId : Text) (key : ListingKey) : Prop :=
  key.orgId = orgId ∧ key.driveId = driveId

instance (orgId driveId : Text) (key : ListingKey) : Decidable (key.In orgId driveId) :=
  inferInstanceAs (Decidable (_ ∧ _))

def listingTtlMs : Nat := 3000

def maxListings : Nat := 100

/-- `CachedListing`, whose organization and drive are those of its key; `request` says whose
load returned the listing. -/
structure CachedListing (Listing : Type) where
  listing : Listing
  request : Nat
  expiresAt : Nat
  deriving DecidableEq, Repr

/-- The point of its promise chain that a request has reached. -/
inductive ListingPhase (Listing : Type) where
  /-- The call of `load` is queued. -/
  | queued
  /-- `load` was called and has not settled. -/
  | loading
  /-- `load` has returned a listing, and the callback that caches it is queued. -/
  | loaded (listing : Listing)
  /-- The callback of `finally` is queued. -/
  | ending (result : Option Listing)
  | settled (result : Option Listing)
  deriving DecidableEq, Repr

/-- The listing that `load` has returned. -/
def ListingPhase.listing? : ListingPhase Listing → Option Listing
  | .queued => none
  | .loading => none
  | .loaded listing => some listing
  | .ending result => result
  | .settled result => result

def ListingPhase.Settled : ListingPhase Listing → Prop
  | .settled _ => True
  | _ => False

/-- The callback that caches the listing may still run. -/
def ListingPhase.MayCache : ListingPhase Listing → Prop
  | .queued | .loading | .loaded _ => True
  | _ => False

/-- `PendingListing`, whose organization and drive are those of its key. -/
structure PendingListing (Listing : Type) where
  key : ListingKey
  invalidated : Bool
  phase : ListingPhase Listing
  deriving DecidableEq, Repr

def PendingListing.reach (phase : ListingPhase Listing) (q : PendingListing Listing) :
    PendingListing Listing :=
  { q with phase := phase }

/-- The state of the module.  `requests` holds every request ever made, and `pending` the
number of the request. -/
structure GlobCache (Listing : Type) where
  cache : OrderedMap ListingKey (CachedListing Listing)
  pending : OrderedMap ListingKey Nat
  requests : List (PendingListing Listing)
  deriving DecidableEq

/-- What a call returns: a promise that is resolved with the cached listing, or the promise of
a request. -/
inductive ListingAnswer (Listing : Type) where
  | cached (request : Nat) (listing : Listing)
  | promise (request : Nat)
  deriving DecidableEq, Repr

def ListingAnswer.request : ListingAnswer Listing → Nat
  | .cached request _ => request
  | .promise request => request

namespace GlobCache

def empty : GlobCache Listing :=
  ⟨OrderedMap.empty, OrderedMap.empty, []⟩

/-- The request for a key whose load is not known to be stale, or a new one. -/
def request (s : GlobCache Listing) (key : ListingKey) :
    ListingAnswer Listing × GlobCache Listing :=
  match s.pending.get key with
  | some existing => (.promise existing, s)
  | none => (.promise s.requests.length,
      { s with
        requests := s.requests ++ [⟨key, false, .queued⟩]
        pending := s.pending.set key s.requests.length })

def getCachedDriveListing (s : GlobCache Listing) (key : ListingKey) (now : Nat) :
    ListingAnswer Listing × GlobCache Listing :=
  match s.cache.get key with
  | some cached =>
      if cached.expiresAt > now then
        (.cached cached.request cached.listing,
          { s with cache := (s.cache.delete key).set key cached })
      else { s with cache := s.cache.delete key }.request key
  | none => s.request key

/-- Change the state of one request. -/
def update (s : GlobCache Listing) (r : Nat)
    (f : PendingListing Listing → PendingListing Listing) : GlobCache Listing :=
  { s with requests := s.requests.modify r f }

/-- `load` is called. -/
def begin (s : GlobCache Listing) (r : Nat) : Option (GlobCache Listing) :=
  match s.requests[r]? with
  | some ⟨_, _, .queued⟩ => some (s.update r (.reach .loading))
  | _ => none

/-- `load` settles: a rejection passes the callback that caches the listing by. -/
def settleLoad (s : GlobCache Listing) (r : Nat) (result : Option Listing) :
    Option (GlobCache Listing) :=
  match s.requests[r]? with
  | some ⟨_, _, .loading⟩ =>
      some (s.update r (.reach (match result with
        | some listing => .loaded listing
        | none => .ending none)))
  | _ => none

/-- `while (cache.size > MAX_ENTRIES) cache.delete(cache.keys().next().value!)`. -/
def evict (cache : OrderedMap ListingKey (CachedListing Listing)) :
    OrderedMap ListingKey (CachedListing Listing) :=
  cache.prune (fun size _ => size ≤ maxListings)

/-- The callback that caches the listing. -/
def store (s : GlobCache Listing) (r : Nat) (now : Nat) : Option (GlobCache Listing) :=
  match s.requests[r]? with
  | some ⟨key, invalidated, .loaded listing⟩ =>
      let stored := (s.cache.delete key).set key ⟨listing, r, now + listingTtlMs⟩
      let cache := if invalidated then s.cache else evict stored
      some ({ s with cache := cache }.update r (.reach (.ending (some listing))))
  | _ => none

/-- The callback of `finally`. -/
def finish (s : GlobCache Listing) (r : Nat) : Option (GlobCache Listing) :=
  match s.requests[r]? with
  | some ⟨key, _, .ending result⟩ =>
      let pending := if s.pending.get key = some r then s.pending.delete key else s.pending
      some ({ s with pending := pending }.update r (.reach (.settled result)))
  | _ => none

/-- The request is in `pending`, under a key of the drive. -/
def PendingIn (s : GlobCache Listing) (orgId driveId : Text) (r : Nat) : Prop :=
  ∃ e ∈ s.pending.entries, e.2 = r ∧ e.1.In orgId driveId

instance (s : GlobCache Listing) (orgId driveId : Text) (r : Nat) :
    Decidable (s.PendingIn orgId driveId r) :=
  inferInstanceAs (Decidable (∃ e ∈ s.pending.entries, _))

def invalidateDriveGlobListings (s : GlobCache Listing) (orgId driveId : Text) :
    GlobCache Listing where
  cache := s.cache.keep (fun e => ¬ e.1.In orgId driveId)
  pending := s.pending.keep (fun e => ¬ e.1.In orgId driveId)
  requests := s.requests.mapIdx (fun r q =>
    if s.PendingIn orgId driveId r then { q with invalidated := true } else q)

/-! ### Runs -/

/-- A step of the module. -/
inductive Event (Listing : Type) where
  | call (key : ListingKey) (now : Nat)
  | begin (r : Nat)
  | settleLoad (r : Nat) (result : Option Listing)
  | store (r : Nat) (now : Nat)
  | finish (r : Nat)
  | invalidate (orgId driveId : Text)
  deriving DecidableEq, Repr

/-- A step; none where the callback is not queued. -/
def step (s : GlobCache Listing) : Event Listing → Option (GlobCache Listing)
  | .call key now => some (s.getCachedDriveListing key now).2
  | .begin r => s.begin r
  | .settleLoad r result => s.settleLoad r result
  | .store r now => s.store r now
  | .finish r => s.finish r
  | .invalidate orgId driveId => some (s.invalidateDriveGlobListings orgId driveId)

def run (s : GlobCache Listing) : List (Event Listing) → Option (GlobCache Listing)
  | [] => some s
  | e :: es => (s.step e).bind (fun s' => s'.run es)

/-- The listing that a call has resolved to. -/
def resolved? (s : GlobCache Listing) : ListingAnswer Listing → Option Listing
  | .cached _ listing => some listing
  | .promise r => match s.requests[r]? with
      | some ⟨_, _, .settled result⟩ => result
      | _ => none

/-! ### What a step does -/

/-- How a step moves a request along its chain. -/
inductive Reaches : Event Listing → Nat → ListingPhase Listing → ListingPhase Listing → Prop
  | stay (e : Event Listing) (r : Nat) (phase : ListingPhase Listing) : Reaches e r phase phase
  | begin (r : Nat) : Reaches (.begin r) r .queued .loading
  | loaded (r : Nat) (listing : Listing) :
      Reaches (.settleLoad r (some listing)) r .loading (.loaded listing)
  | failed (r : Nat) : Reaches (.settleLoad r none) r .loading (.ending none)
  | stored (r now : Nat) (listing : Listing) :
      Reaches (.store r now) r (.loaded listing) (.ending (some listing))
  | finished (r : Nat) (result : Option Listing) :
      Reaches (.finish r) r (.ending result) (.settled result)

/-- What a step may leave: where the entries and the requests of the new state come from. -/
structure Steps (s : GlobCache Listing) (e : Event Listing) (s' : GlobCache Listing) : Prop where
  cached : ∀ {k c}, (k, c) ∈ s'.cache.entries → (k, c) ∈ s.cache.entries ∨
    ∃ now, e = .store c.request now ∧
      s.requests[c.request]? = some ⟨k, false, .loaded c.listing⟩
  pending : ∀ {k r}, (k, r) ∈ s'.pending.entries → (k, r) ∈ s.pending.entries ∨
    r = s.requests.length
  requests : ∀ {r q'}, s'.requests[r]? = some q' →
    (∃ q, s.requests[r]? = some q ∧ q.key = q'.key ∧
      (q.invalidated = true → q'.invalidated = true) ∧ Reaches e r q.phase q'.phase) ∨
    r = s.requests.length ∧ q'.invalidated = false ∧ q'.phase = .queued
  grows : s.requests.length ≤ s'.requests.length

/-- A step that leaves the requests. -/
theorem Steps.of_requests {s s' : GlobCache Listing} {e : Event Listing}
    (hcache : ∀ {x}, x ∈ s'.cache.entries → x ∈ s.cache.entries)
    (hpending : ∀ {x}, x ∈ s'.pending.entries → x ∈ s.pending.entries)
    (hrequests : s'.requests = s.requests) :
  Steps s e s'
  where
  cached h := .inl (hcache h)
  pending h := .inl (hpending h)
  requests {r q'} h := by
    left
    rw [hrequests] at h
    exact ⟨q', h, rfl, id, .stay e r q'.phase⟩
  grows := Nat.le_of_eq (by rw [hrequests])

theorem getElem?_update {s : GlobCache Listing} {r i : Nat}
    {f : PendingListing Listing → PendingListing Listing} {q : PendingListing Listing}
    (h : s.requests[r]? = some q) :
  (s.update r f).requests[i]? = if i = r then some (f q) else s.requests[i]?
  := by
  unfold update
  dsimp only
  rw [List.getElem?_modify]
  by_cases hi : i = r
  · subst hi
    rw [if_pos rfl, h]
    simp
  · rw [if_neg hi]
    cases s.requests[i]? with
    | none => rfl
    | some q' => simp [Ne.symm hi]

/-- A step that moves one request along its chain. -/
theorem Steps.of_reach {s s' : GlobCache Listing} {e : Event Listing} {r : Nat}
    {q : PendingListing Listing} {phase : ListingPhase Listing} (hq : s.requests[r]? = some q)
    (hreach : Reaches e r q.phase phase)
    (hcache : ∀ {k c}, (k, c) ∈ s'.cache.entries → (k, c) ∈ s.cache.entries ∨
      ∃ now, e = .store c.request now ∧
        s.requests[c.request]? = some ⟨k, false, .loaded c.listing⟩)
    (hpending : ∀ {x}, x ∈ s'.pending.entries → x ∈ s.pending.entries)
    (hrequests : s'.requests = (s.update r (.reach phase)).requests) :
  Steps s e s'
  where
  cached := hcache
  pending h := .inl (hpending h)
  requests {i q'} h := by
    left
    rw [hrequests, getElem?_update hq] at h
    by_cases hi : i = r
    · rw [if_pos hi, Option.some.injEq] at h
      subst hi h
      exact ⟨q, hq, rfl, id, hreach⟩
    · rw [if_neg hi] at h
      exact ⟨q', h, rfl, id, .stay e i q'.phase⟩
  grows := by
    rw [hrequests]
    unfold update
    simp

theorem request_steps (s : GlobCache Listing) (key : ListingKey) (e : Event Listing) :
  Steps s e (s.request key).2
  := by
  unfold request
  split
  · apply Steps.of_requests id id rfl
  · constructor
    · exact .inl
    · intro k r h
      rw [OrderedMap.mem_set, Prod.mk.injEq] at h
      rcases h with ⟨-, rfl⟩ | ⟨h, -⟩
      · exact .inr rfl
      · exact .inl h
    · intro r q' h
      dsimp only at h
      rw [List.getElem?_append] at h
      split at h
      · exact .inl ⟨q', h, rfl, id, .stay e r q'.phase⟩
      · right
        obtain ⟨hr, hq⟩ := List.getElem?_eq_some_iff.mp h
        simp only [List.length_singleton] at hr
        have hzero : r - s.requests.length = 0 := by omega
        simp only [hzero, List.getElem_cons_zero] at hq
        subst hq
        exact ⟨by omega, rfl, rfl⟩
    · simp

theorem call_steps (s : GlobCache Listing) (key : ListingKey) (now : Nat) (e : Event Listing) :
  Steps s e (s.getCachedDriveListing key now).2
  := by
  unfold getCachedDriveListing
  split
  · rename_i cached hcached
    rw [OrderedMap.get_eq_some_iff] at hcached
    split
    · refine Steps.of_requests (fun hx => ?_) (fun hx => hx) rfl
      dsimp only at hx
      rw [OrderedMap.mem_set] at hx
      rcases hx with rfl | ⟨hx, -⟩
      · exact hcached
      · exact (OrderedMap.mem_delete.mp hx).1
    · have hsteps := request_steps { s with cache := s.cache.delete key } key e
      refine ⟨fun h => ?_, hsteps.pending, hsteps.requests, hsteps.grows⟩
      rcases hsteps.cached h with h | h
      · exact .inl (OrderedMap.mem_delete.mp h).1
      · exact .inr h
  · apply request_steps

theorem invalidate_steps (s : GlobCache Listing) (orgId driveId : Text) (e : Event Listing) :
  Steps s e (s.invalidateDriveGlobListings orgId driveId)
  := by
  constructor
  · intro k c h
    exact .inl (OrderedMap.mem_keep.mp h).1
  · intro k r h
    exact .inl (OrderedMap.mem_keep.mp h).1
  · intro r q' h
    left
    unfold invalidateDriveGlobListings at h
    dsimp only at h
    rw [List.getElem?_mapIdx] at h
    obtain ⟨q, hq, rfl⟩ := Option.map_eq_some_iff.mp h
    refine ⟨q, hq, ?_, ?_, ?_⟩
    · split <;> rfl
    · intro hinvalidated
      split
      · rfl
      · exact hinvalidated
    · split <;> apply Reaches.stay
  · unfold invalidateDriveGlobListings
    simp

theorem store_steps {s s' : GlobCache Listing} {r now : Nat} (h : s.store r now = some s') :
  Steps s (.store r now) s'
  := by
  unfold store at h
  split at h
  · rename_i key invalidated listing hq
    cases h
    refine Steps.of_reach hq (.stored r now listing) (fun {k c} hc => ?_) (fun hx => hx) rfl
    change (k, c) ∈ (if invalidated = true then _ else _ : OrderedMap _ _).entries at hc
    split at hc
    · exact .inl hc
    · rename_i hvalid
      replace hc := OrderedMap.mem_of_mem_prune hc
      rw [OrderedMap.mem_set, Prod.mk.injEq] at hc
      rcases hc with ⟨rfl, rfl⟩ | ⟨hc, -⟩
      · rw [Bool.not_eq_true] at hvalid
        subst hvalid
        exact .inr ⟨now, rfl, hq⟩
      · exact .inl (OrderedMap.mem_delete.mp hc).1
  · cases h

theorem finish_steps {s s' : GlobCache Listing} {r : Nat} (h : s.finish r = some s') :
  Steps s (.finish r) s'
  := by
  unfold finish at h
  split at h
  · rename_i key invalidated result hq
    cases h
    refine Steps.of_reach hq (.finished r result) .inl (fun {x} hx => ?_) rfl
    change x ∈ (if _ then _ else _ : OrderedMap _ _).entries at hx
    split at hx
    · exact (OrderedMap.mem_delete.mp hx).1
    · exact hx
  · cases h

theorem step_steps {s s' : GlobCache Listing} {e : Event Listing} (h : s.step e = some s') :
  Steps s e s'
  := by
  cases e with
  | call key now =>
      cases h
      apply call_steps
  | begin r =>
      unfold step begin at h
      dsimp only at h
      split at h
      · rename_i hq
        cases h
        exact Steps.of_reach hq (.begin r) .inl (fun hx => hx) rfl
      · cases h
  | settleLoad r result =>
      unfold step settleLoad at h
      dsimp only at h
      split at h
      · rename_i hq
        cases h
        cases result with
        | none => exact Steps.of_reach hq (.failed r) .inl (fun hx => hx) rfl
        | some listing => exact Steps.of_reach hq (.loaded r listing) .inl (fun hx => hx) rfl
      · cases h
  | store r now => exact store_steps h
  | finish r => exact finish_steps h
  | invalidate orgId driveId =>
      cases h
      apply invalidate_steps

/-! ### The invariant -/

/-- The requests that `pending` holds are those that are neither settled nor invalidated, and
the cache is not too large. -/
structure Sound (s : GlobCache Listing) : Prop where
  pending : ∀ {k r}, (k, r) ∈ s.pending.entries →
    ∃ phase, s.requests[r]? = some ⟨k, false, phase⟩ ∧ ¬ phase.Settled
  unsettled : ∀ {r k phase}, s.requests[r]? = some ⟨k, false, phase⟩ → ¬ phase.Settled →
    (k, r) ∈ s.pending.entries
  size : s.cache.size ≤ maxListings

theorem sound_empty :
  Sound (empty : GlobCache Listing)
  where
  pending h := by cases h
  unsettled h := by cases h
  size := Nat.zero_le _

/-- The cache may change within its bound. -/
theorem Sound.of_cache {s : GlobCache Listing} (h : Sound s)
    {cache : OrderedMap ListingKey (CachedListing Listing)} (hsize : cache.size ≤ maxListings) :
  Sound { s with cache := cache }
  := ⟨h.pending, h.unsettled, hsize⟩

theorem Sound.request {s : GlobCache Listing} (h : Sound s) (key : ListingKey) :
  Sound (s.request key).2
  := by
  unfold GlobCache.request
  split
  · exact h
  · rename_i hnone
    rw [OrderedMap.get_eq_none_iff] at hnone
    refine ⟨?_, ?_, h.size⟩
    · intro k r hkr
      rw [OrderedMap.mem_set, Prod.mk.injEq] at hkr
      rcases hkr with ⟨rfl, rfl⟩ | ⟨hkr, -⟩
      · exact ⟨.queued, List.getElem?_concat_length, id⟩
      · obtain ⟨phase, hq, hphase⟩ := h.pending hkr
        exact ⟨phase, (List.getElem?_append_left (List.getElem?_eq_some_iff.mp hq).1).trans hq,
          hphase⟩
    · intro r k phase hq hphase
      dsimp only at hq
      rw [OrderedMap.mem_set]
      rcases Nat.lt_or_ge r s.requests.length with hr | hr
      · rw [List.getElem?_append_left hr] at hq
        have hmem := h.unsettled hq hphase
        right
        refine ⟨hmem, ?_⟩
        rintro rfl
        exact hnone r hmem
      · left
        rw [List.getElem?_append_right hr] at hq
        obtain ⟨hlt, heq⟩ := List.getElem?_eq_some_iff.mp hq
        simp only [List.length_singleton] at hlt
        have hzero : r = s.requests.length := by omega
        subst hzero
        simp only [Nat.sub_self, List.getElem_cons_zero, PendingListing.mk.injEq] at heq
        rw [heq.1]

theorem Sound.call {s : GlobCache Listing} (h : Sound s) (key : ListingKey) (now : Nat) :
  Sound (s.getCachedDriveListing key now).2
  := by
  unfold getCachedDriveListing
  split
  · rename_i cached hcached
    split
    · apply h.of_cache
      rw [OrderedMap.get_eq_some_iff] at hcached
      exact Nat.le_trans (OrderedMap.size_set_delete_le hcached cached) h.size
    · apply Sound.request
      exact h.of_cache (Nat.le_trans (OrderedMap.size_delete_le _ _) h.size)
  · exact h.request key

/-- A request that is not settled moves along its chain without settling. -/
theorem Sound.reach {s : GlobCache Listing} (h : Sound s) {r : Nat} {q : PendingListing Listing}
    {phase : ListingPhase Listing} (hq : s.requests[r]? = some q) (hold : ¬ q.phase.Settled)
    (hnew : ¬ phase.Settled) :
  Sound (s.update r (.reach phase))
  := by
  refine ⟨?_, ?_, h.size⟩
  · intro k i hki
    obtain ⟨phase', hq', hphase'⟩ := h.pending hki
    rw [getElem?_update hq]
    by_cases hi : i = r
    · subst hi
      rw [hq, Option.some.injEq] at hq'
      subst hq'
      exact ⟨phase, if_pos rfl, hnew⟩
    · rw [if_neg hi]
      exact ⟨phase', hq', hphase'⟩
  · intro i k phase' hq' hphase'
    rw [getElem?_update hq] at hq'
    by_cases hi : i = r
    · rw [if_pos hi, Option.some.injEq] at hq'
      subst hi
      obtain ⟨key, invalidated, before⟩ := q
      cases hq'
      exact h.unsettled hq hold
    · rw [if_neg hi] at hq'
      exact h.unsettled hq' hphase'

theorem Sound.finish {s s' : GlobCache Listing} (h : Sound s) {r : Nat}
    (hstep : s.finish r = some s') :
  Sound s'
  := by
  unfold GlobCache.finish at hstep
  split at hstep
  · rename_i key invalidated result hq
    cases hstep
    have hpending : ∀ {k i}, (k, i) ∈ (if s.pending.get key = some r then s.pending.delete key
        else s.pending).entries ↔ (k, i) ∈ s.pending.entries ∧ i ≠ r := by
      intro k i
      split
      · rename_i hget
        rw [OrderedMap.mem_delete]
        apply and_congr_right
        intro hki
        rw [OrderedMap.get_eq_some_iff] at hget
        constructor
        · rintro hne rfl
          obtain ⟨phase, hphase, -⟩ := h.pending hki
          rw [hq] at hphase
          cases hphase
          exact hne rfl
        · rintro hne rfl
          exact hne (OrderedMap.eq_of_mem hki hget)
      · rename_i hget
        constructor
        · intro hki
          refine ⟨hki, ?_⟩
          rintro rfl
          obtain ⟨phase, hphase, -⟩ := h.pending hki
          rw [hq] at hphase
          cases hphase
          exact hget (OrderedMap.get_eq_some_iff.mpr hki)
        · exact And.left
    refine ⟨?_, ?_, h.size⟩
    · intro k i hki
      obtain ⟨hki, hne⟩ := hpending.mp hki
      obtain ⟨phase, hphase, hunsettled⟩ := h.pending hki
      exact ⟨phase, (getElem?_update hq).trans ((if_neg hne).trans hphase), hunsettled⟩
    · intro i k phase hphase hunsettled
      replace hphase := (getElem?_update hq).symm.trans hphase
      apply hpending.mpr
      by_cases hi : i = r
      · rw [if_pos hi, Option.some.injEq] at hphase
        cases hphase
        exact absurd trivial hunsettled
      · rw [if_neg hi] at hphase
        exact ⟨h.unsettled hphase hunsettled, hi⟩
  · cases hstep

theorem Sound.invalidate {s : GlobCache Listing} (h : Sound s) (orgId driveId : Text) :
  Sound (s.invalidateDriveGlobListings orgId driveId)
  := by
  refine ⟨?_, ?_, Nat.le_trans (OrderedMap.size_keep_le _ _) h.size⟩
  · intro k r hkr
    obtain ⟨hmem, hkeep⟩ := OrderedMap.mem_keep.mp hkr
    simp only [decide_eq_true_eq] at hkeep
    obtain ⟨phase, hq, hphase⟩ := h.pending hmem
    refine ⟨phase, ?_, hphase⟩
    unfold invalidateDriveGlobListings
    dsimp only
    rw [List.getElem?_mapIdx, hq, Option.map_some, if_neg]
    rintro ⟨⟨k', r'⟩, hmem', rfl, hkey⟩
    obtain ⟨phase', hq', -⟩ := h.pending hmem'
    rw [hq] at hq'
    cases hq'
    exact hkeep hkey
  · intro r k phase hq hphase
    unfold invalidateDriveGlobListings at hq
    dsimp only at hq
    rw [List.getElem?_mapIdx] at hq
    obtain ⟨q, hold, hq⟩ := Option.map_eq_some_iff.mp hq
    split at hq
    · cases hq
    · rename_i hnot
      subst hq
      have hmem := h.unsettled hold hphase
      apply OrderedMap.mem_keep.mpr
      refine ⟨hmem, ?_⟩
      simp only [decide_eq_true_eq]
      intro hkey
      exact hnot ⟨(k, r), hmem, rfl, hkey⟩

theorem Sound.store {s s' : GlobCache Listing} (h : Sound s) {r now : Nat}
    (hstep : s.store r now = some s') :
  Sound s'
  := by
  unfold GlobCache.store at hstep
  split at hstep
  · rename_i key invalidated listing hq
    cases hstep
    refine Sound.reach (h.of_cache ?_) hq id id
    split
    · exact h.size
    · apply OrderedMap.size_prune_le
      intro size _ hstop
      exact of_decide_eq_true hstop
  · cases hstep

theorem Sound.step {s s' : GlobCache Listing} (h : Sound s) {e : Event Listing}
    (hstep : s.step e = some s') :
  Sound s'
  := by
  cases e with
  | call key now =>
      cases hstep
      exact h.call key now
  | begin r =>
      unfold GlobCache.step begin at hstep
      dsimp only at hstep
      split at hstep
      · rename_i hq
        cases hstep
        exact h.reach hq id id
      · cases hstep
  | settleLoad r result =>
      unfold GlobCache.step settleLoad at hstep
      dsimp only at hstep
      split at hstep
      · rename_i hq
        cases hstep
        apply h.reach hq id
        cases result <;> exact id
      · cases hstep
  | store r now => exact h.store hstep
  | finish r => exact h.finish hstep
  | invalidate orgId driveId =>
      cases hstep
      exact h.invalidate orgId driveId

theorem Sound.run {s s' : GlobCache Listing} (h : Sound s) {es : List (Event Listing)}
    (hrun : s.run es = some s') :
  Sound s'
  := by
  induction es generalizing s with
  | nil =>
      cases hrun
      exact h
  | cons e es ih =>
      obtain ⟨t, hstep, hrest⟩ := Option.bind_eq_some_iff.mp hrun
      exact ih (h.step hstep) hrest

/-! ### Freshness -/

/-- After an invalidation of the drive, before which `n` requests were made: what the cache and
`pending` hold for the drive is of later requests, and an earlier request caches nothing. -/
structure FreshFrom (n : Nat) (orgId driveId : Text) (s : GlobCache Listing) : Prop where
  cached : ∀ {k c}, (k, c) ∈ s.cache.entries → k.In orgId driveId → n ≤ c.request
  pending : ∀ {k r}, (k, r) ∈ s.pending.entries → k.In orgId driveId → n ≤ r
  earlier : ∀ {r q}, s.requests[r]? = some q → r < n → q.key.In orgId driveId →
    q.phase.MayCache → q.invalidated = true
  made : n ≤ s.requests.length

theorem freshFrom_invalidate {s : GlobCache Listing} (h : Sound s) (orgId driveId : Text) :
  FreshFrom s.requests.length orgId driveId (s.invalidateDriveGlobListings orgId driveId)
  := by
  constructor
  · intro k c hkc hkey
    have hkeep := (OrderedMap.mem_keep.mp hkc).2
    exact absurd hkey (of_decide_eq_true hkeep)
  · intro k r hkr hkey
    have hkeep := (OrderedMap.mem_keep.mp hkr).2
    exact absurd hkey (of_decide_eq_true hkeep)
  · intro r q' hq' _ hkey hphase
    unfold invalidateDriveGlobListings at hq'
    dsimp only at hq'
    rw [List.getElem?_mapIdx] at hq'
    obtain ⟨⟨k, invalidated, phase⟩, hq, rfl⟩ := Option.map_eq_some_iff.mp hq'
    split at hkey
    · rw [if_pos ‹_›]
    · rename_i hnot
      rw [if_neg hnot] at hphase ⊢
      by_contra hvalid
      rw [Bool.not_eq_true] at hvalid
      dsimp only at hvalid
      subst hvalid
      have hmem := h.unsettled hq (by cases phase <;> first | exact id | exact absurd hphase id)
      exact hnot ⟨(k, r), hmem, rfl, hkey⟩
  · exact Nat.le_of_eq (List.length_mapIdx).symm

theorem Reaches.mayCache {e : Event Listing} {r : Nat} {phase phase' : ListingPhase Listing}
    (h : Reaches e r phase phase') (hphase : phase'.MayCache) :
  phase.MayCache
  := by
  cases h with
  | stay => exact hphase
  | begin => trivial
  | loaded => trivial
  | failed => trivial
  | stored => trivial
  | finished => exact hphase

theorem FreshFrom.step {n : Nat} {orgId driveId : Text} {s s' : GlobCache Listing}
    {e : Event Listing} (h : FreshFrom n orgId driveId s) (hstep : s.step e = some s') :
  FreshFrom n orgId driveId s'
  := by
  have hsteps := step_steps hstep
  constructor
  · intro k c hkc hkey
    rcases hsteps.cached hkc with hkc | ⟨now, -, hq⟩
    · exact h.cached hkc hkey
    · by_contra hlt
      have hinvalidated := h.earlier hq (Nat.not_le.mp hlt) hkey trivial
      cases hinvalidated
  · intro k r hkr hkey
    rcases hsteps.pending hkr with hkr | rfl
    · exact h.pending hkr hkey
    · exact h.made
  · intro r q' hq' hr hkey hphase
    rcases hsteps.requests hq' with ⟨q, hq, hkeys, hinvalidated, hreach⟩ | ⟨rfl, -⟩
    · apply hinvalidated
      rw [← hkeys] at hkey
      exact h.earlier hq hr hkey (hreach.mayCache hphase)
    · exact absurd h.made (Nat.not_le.mpr hr)
  · exact Nat.le_trans h.made hsteps.grows

theorem FreshFrom.run {n : Nat} {orgId driveId : Text} {s s' : GlobCache Listing}
    {es : List (Event Listing)} (h : FreshFrom n orgId driveId s) (hrun : s.run es = some s') :
  FreshFrom n orgId driveId s'
  := by
  induction es generalizing s with
  | nil =>
      cases hrun
      exact h
  | cons e es ih =>
      obtain ⟨t, hstep, hrest⟩ := Option.bind_eq_some_iff.mp hrun
      exact ih (h.step hstep) hrest

/-- The request that answers a call is in the cache or in `pending`, or new. -/
theorem answer_cases (s : GlobCache Listing) (key : ListingKey) (now : Nat) :
  (∃ c, (key, c) ∈ s.cache.entries ∧
      (s.getCachedDriveListing key now).1 = .cached c.request c.listing) ∨
    ∃ r, (s.getCachedDriveListing key now).1 = .promise r ∧
      ((key, r) ∈ s.pending.entries ∨ r = s.requests.length)
  := by
  have hrequest : ∀ t : GlobCache Listing, t.pending = s.pending → t.requests = s.requests →
      ∃ r, (t.request key).1 = .promise r ∧
        ((key, r) ∈ s.pending.entries ∨ r = s.requests.length) := by
    intro t hpending hrequests
    unfold request
    rw [hpending, hrequests]
    split
    · rename_i r hget
      exact ⟨r, rfl, .inl (OrderedMap.get_eq_some_iff.mp hget)⟩
    · exact ⟨_, rfl, .inr rfl⟩
  unfold getCachedDriveListing
  split
  · rename_i c hget
    split
    · exact .inl ⟨c, OrderedMap.get_eq_some_iff.mp hget, rfl⟩
    · exact .inr (hrequest _ rfl rfl)
  · exact .inr (hrequest s rfl rfl)

theorem FreshFrom.answer {n : Nat} {orgId driveId : Text} {s : GlobCache Listing}
    (h : FreshFrom n orgId driveId s) {key : ListingKey} (hkey : key.In orgId driveId)
    (now : Nat) :
  n ≤ (s.getCachedDriveListing key now).1.request
  := by
  rcases answer_cases s key now with ⟨c, hmem, hanswer⟩ | ⟨r, hanswer, hr⟩
  · rw [hanswer]
    exact h.cached hmem hkey
  · rw [hanswer]
    rcases hr with hr | rfl
    · exact h.pending hr hkey
    · exact h.made

/-! ### The loads of a run -/

/-- The events of a run account for the loads that have begun and for the listings. -/
structure Recorded (es : List (Event Listing)) (s : GlobCache Listing) : Prop where
  begun : ∀ {r q}, s.requests[r]? = some q → q.phase ≠ .queued → .begin r ∈ es
  loaded : ∀ {r q listing}, s.requests[r]? = some q → q.phase.listing? = some listing →
    .settleLoad r (some listing) ∈ es
  cached : ∀ {k c}, (k, c) ∈ s.cache.entries →
    .begin c.request ∈ es ∧ .settleLoad c.request (some c.listing) ∈ es
  made : ∀ {r}, .begin r ∈ es → r < s.requests.length
  madeLoaded : ∀ {r result}, .settleLoad r result ∈ es → r < s.requests.length

theorem recorded_empty :
  Recorded [] (empty : GlobCache Listing)
  where
  begun h := by cases h
  loaded h := by cases h
  cached h := by cases h
  made h := by cases h
  madeLoaded h := by cases h

theorem Reaches.begun {e : Event Listing} {r : Nat} {phase phase' : ListingPhase Listing}
    (h : Reaches e r phase phase') (hphase : phase' ≠ .queued) :
  phase ≠ .queued ∨ e = .begin r
  := by
  cases h with
  | stay => exact .inl hphase
  | begin => exact .inr rfl
  | loaded => exact .inl (by rintro ⟨⟩)
  | failed => exact .inl (by rintro ⟨⟩)
  | stored => exact .inl (by rintro ⟨⟩)
  | finished => exact .inl (by rintro ⟨⟩)

theorem Reaches.loaded? {e : Event Listing} {r : Nat} {phase phase' : ListingPhase Listing}
    (h : Reaches e r phase phase') {listing : Listing} (hphase : phase'.listing? = some listing) :
  phase.listing? = some listing ∨ e = .settleLoad r (some listing)
  := by
  cases h with
  | stay => exact .inl hphase
  | begin => cases hphase
  | loaded =>
      cases hphase
      exact .inr rfl
  | failed => cases hphase
  | stored => exact .inl hphase
  | finished => exact .inl hphase

theorem Recorded.step {es : List (Event Listing)} {s s' : GlobCache Listing} {e : Event Listing}
    (h : Recorded es s) (hstep : s.step e = some s') :
  Recorded (es ++ [e]) s'
  := by
  have hsteps := step_steps hstep
  constructor
  · intro r q' hq' hphase
    rw [List.mem_append, List.mem_singleton]
    rcases hsteps.requests hq' with ⟨q, hq, -, -, hreach⟩ | ⟨-, -, hnew⟩
    · rcases hreach.begun hphase with hbefore | rfl
      · exact .inl (h.begun hq hbefore)
      · exact .inr rfl
    · exact absurd hnew hphase
  · intro r q' listing hq' hphase
    rw [List.mem_append, List.mem_singleton]
    rcases hsteps.requests hq' with ⟨q, hq, -, -, hreach⟩ | ⟨-, -, hnew⟩
    · rcases hreach.loaded? hphase with hbefore | rfl
      · exact .inl (h.loaded hq hbefore)
      · exact .inr rfl
    · rw [hnew] at hphase
      cases hphase
  · intro k c hkc
    rw [List.mem_append, List.mem_append]
    rcases hsteps.cached hkc with hkc | ⟨now, -, hq⟩
    · exact ⟨.inl (h.cached hkc).1, .inl (h.cached hkc).2⟩
    · exact ⟨.inl (h.begun hq (by rintro ⟨⟩)), .inl (h.loaded hq rfl)⟩
  · intro r hr
    rw [List.mem_append, List.mem_singleton] at hr
    rcases hr with hr | rfl
    · exact Nat.lt_of_lt_of_le (h.made hr) hsteps.grows
    · unfold GlobCache.step begin at hstep
      dsimp only at hstep
      split at hstep
      · rename_i hq
        exact Nat.lt_of_lt_of_le (List.getElem?_eq_some_iff.mp hq).1 hsteps.grows
      · cases hstep
  · intro r result hr
    rw [List.mem_append, List.mem_singleton] at hr
    rcases hr with hr | rfl
    · exact Nat.lt_of_lt_of_le (h.madeLoaded hr) hsteps.grows
    · unfold GlobCache.step settleLoad at hstep
      dsimp only at hstep
      split at hstep
      · rename_i hq
        exact Nat.lt_of_lt_of_le (List.getElem?_eq_some_iff.mp hq).1 hsteps.grows
      · cases hstep

theorem Recorded.run {es fs : List (Event Listing)} {s s' : GlobCache Listing}
    (h : Recorded es s) (hrun : s.run fs = some s') :
  Recorded (es ++ fs) s'
  := by
  induction fs generalizing es s with
  | nil =>
      cases hrun
      rw [List.append_nil]
      exact h
  | cons f fs ih =>
      obtain ⟨t, hstep, hrest⟩ := Option.bind_eq_some_iff.mp hrun
      have hfs := ih (h.step hstep) hrest
      rwa [List.append_assoc] at hfs

/-- The load of a call's request is part of the run when the call has resolved. -/
theorem Recorded.resolved {es after : List (Event Listing)} {s u : GlobCache Listing}
    (h : Recorded es s) {key : ListingKey} {now : Nat} {listing : Listing}
    (hrun : (s.getCachedDriveListing key now).2.run after = some u)
    (hresolved : u.resolved? (s.getCachedDriveListing key now).1 = some listing) :
  .begin (s.getCachedDriveListing key now).1.request ∈ es ++ after ∧
    .settleLoad (s.getCachedDriveListing key now).1.request (some listing) ∈ es ++ after
  := by
  rcases answer_cases s key now with ⟨c, hmem, hanswer⟩ | ⟨r, hanswer, -⟩
  · rw [hanswer] at hresolved ⊢
    cases hresolved
    obtain ⟨hbegin, hload⟩ := h.cached hmem
    exact ⟨List.mem_append_left after hbegin, List.mem_append_left after hload⟩
  · rw [hanswer] at hresolved ⊢
    have hcall : Recorded (es ++ [.call key now]) (s.getCachedDriveListing key now).2 :=
      h.step rfl
    have hu := hcall.run hrun
    unfold resolved? at hresolved
    dsimp only at hresolved
    split at hresolved
    · rename_i result hq
      have hbegin := hu.begun hq (by rintro ⟨⟩)
      have hload := hu.loaded hq hresolved
      simp only [List.mem_append, List.mem_singleton, reduceCtorEq, or_false] at hbegin hload ⊢
      exact ⟨hbegin, hload⟩
    · cases hresolved

theorem run_append {s : GlobCache Listing} {es fs : List (Event Listing)} :
  s.run (es ++ fs) = (s.run es).bind (fun t => t.run fs)
  := by
  induction es generalizing s with
  | nil => rfl
  | cons e es ih =>
      rw [List.cons_append, GlobCache.run, GlobCache.run, Option.bind_assoc]
      congr 1
      funext t
      exact ih

/-- In every run: the cache holds at most 100 listings, a request in `pending` has not reached
the end of its chain, and a call after an invalidation of its drive resolves to the listing of a load that began after
the invalidation. -/
theorem glob_listings_fresh {es : List (Event Listing)} {s : GlobCache Listing}
    (hrun : empty.run es = some s) :
  s.cache.size ≤ 100 ∧
    (∀ key r, s.pending.get key = some r →
      ∃ q, s.requests[r]? = some q ∧ ¬ q.phase.Settled) ∧
    ∀ before between orgId driveId, es = before ++ .invalidate orgId driveId :: between →
      ∀ key now after u listing, key.In orgId driveId →
        (s.getCachedDriveListing key now).2.run after = some u →
        u.resolved? (s.getCachedDriveListing key now).1 = some listing →
        let r := (s.getCachedDriveListing key now).1.request
        .begin r ∉ before ∧ .begin r ∈ between ++ after ∧
          .settleLoad r (some listing) ∈ between ++ after
  := by
  have hsound : Sound s := sound_empty.run hrun
  refine ⟨hsound.size, ?_, ?_⟩
  · intro key r hget
    obtain ⟨phase, hq, hphase⟩ := hsound.pending (OrderedMap.get_eq_some_iff.mp hget)
    exact ⟨_, hq, hphase⟩
  · rintro before between orgId driveId rfl key now after u listing hkey hafter hresolved
    rw [run_append] at hrun
    obtain ⟨t, hbefore, hbetween⟩ := Option.bind_eq_some_iff.mp hrun
    have htrace := recorded_empty.run hbefore
    have hfresh : FreshFrom t.requests.length orgId driveId s :=
      (freshFrom_invalidate (sound_empty.run hbefore) orgId driveId).run hbetween
    have hnew := Nat.not_lt.mpr (hfresh.answer hkey now)
    have hbegin : .begin (s.getCachedDriveListing key now).1.request ∉ before :=
      fun hmem => hnew (htrace.made hmem)
    have hload : .settleLoad (s.getCachedDriveListing key now).1.request (some listing) ∉ before :=
      fun hmem => hnew (htrace.madeLoaded hmem)
    have hs : Recorded (before ++ .invalidate orgId driveId :: between) s := htrace.run hbetween
    have hresult := hs.resolved hafter hresolved
    simp only [List.append_assoc, List.cons_append, List.mem_append, List.mem_cons, reduceCtorEq,
      false_or, hbegin, hload] at hresult
    simp only [List.mem_append]
    exact ⟨hbegin, hresult⟩

def sampleListingKey : ListingKey :=
  ⟨['o'], ['d'], ['/']⟩

/-- A load that is in flight during an invalidation and ends after a newer one. -/
def sampleListingRun : List (Event Nat) :=
  [.call sampleListingKey 0, .begin 0, .invalidate ['o'] ['d'], .call sampleListingKey 1, .begin 1,
    .settleLoad 1 (some 7), .store 1 2, .finish 1, .settleLoad 0 (some 5), .store 0 3, .finish 0]

/-- The listing of the newer load stays in the cache. -/
theorem glob_listings_fresh_sampleListingRun :
  ∃ s, empty.run sampleListingRun = some s ∧ s.cache.size ≤ 100 ∧
    (s.getCachedDriveListing sampleListingKey 4).1 = .cached 1 7 ∧ .begin 1 ∉ sampleListingRun.take 2
  := by
  have hrun : ∃ s, empty.run sampleListingRun = some s ∧
      (s.getCachedDriveListing sampleListingKey 4).1 = .cached 1 7 := by
    decide +kernel
  obtain ⟨s, hs, hanswer⟩ := hrun
  obtain ⟨hsize, -, hfresh⟩ := glob_listings_fresh hs
  have hcall := hfresh (sampleListingRun.take 2) (sampleListingRun.drop 3) ['o'] ['d'] rfl
    sampleListingKey 4 [] (s.getCachedDriveListing sampleListingKey 4).2 7 ⟨rfl, rfl⟩ rfl
    (by rw [hanswer]; rfl)
  rw [hanswer] at hcall
  exact ⟨s, hs, hsize, hanswer, hcall.1⟩

end GlobCache

end

end AgentFs

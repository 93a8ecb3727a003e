import AgentFs.JustBash.Drive

/-!
# The request cache of a just-bash file system

`RequestCache` of `just-bash/src/index.ts`: answers by path, and the requests in flight.  The
requests that a cache has made are numbered in the order in which `load` was called; what a
request settles with and the clock are inputs.  An entry of a map says whose answer it is.
-/

namespace AgentFs.JustBash

section

variable {T : Type}

/-- The point that a request has reached. -/
inductive RequestPhase (T : Type) where
  | inFlight
  /-- It is fulfilled, and the callback of the cache is queued. -/
  | fulfilled (value : T)
  /-- It is rejected, and the callback of the cache is queued. -/
  | rejected
  /-- No callback is queued any more. -/
  | over (value : Option T)
  deriving DecidableEq, Repr

/-- The value that a request was fulfilled with. -/
def RequestPhase.value? : RequestPhase T → Option T
  | .inFlight => none
  | .fulfilled value => some value
  | .rejected => none
  | .over value => value

/-- A call of `load`; the cache has callbacks on one that is `shared`. -/
structure CacheRequest (T : Type) where
  path : Route
  shared : Bool
  phase : RequestPhase T
  deriving DecidableEq, Repr

def CacheRequest.reach (phase : RequestPhase T) (q : CacheRequest T) : CacheRequest T :=
  { q with phase := phase }

/-- An answer, when it has arrived, and the request it is of. -/
structure CachedAnswer (T : Type) where
  since : Int
  value : T
  request : Nat
  deriving DecidableEq, Repr

/-- The state of a cache; `ttlMs` is `none` for `Infinity`. -/
structure RequestCache (T : Type) where
  ttlMs : Option Int
  answers : OrderedMap Route (CachedAnswer T)
  inFlight : OrderedMap Route Nat
  requests : List (CacheRequest T)
  deriving DecidableEq

/-- What `get` returns: a promise that is resolved with a cached value, or that of a request. -/
inductive CacheReply (T : Type) where
  | cached (request : Nat) (value : T)
  | promise (request : Nat)
  deriving DecidableEq, Repr

def CacheReply.request : CacheReply T → Nat
  | .cached request _ => request
  | .promise request => request

def maxCacheEntries : Nat := 10000

namespace RequestCache

def new (ttlMs : Option Int) : RequestCache T :=
  ⟨ttlMs, OrderedMap.empty, OrderedMap.empty, []⟩

def isFresh (c : RequestCache T) (now since : Int) : Bool :=
  match c.ttlMs with
  | none => true
  | some ttlMs => now - since < ttlMs

/-- `ttlMs > 0`. -/
def enabled (c : RequestCache T) : Bool :=
  match c.ttlMs with
  | none => true
  | some ttlMs => ttlMs > 0

/-- The fresh answer for a path. -/
def answer (c : RequestCache T) (path : Route) (now : Int) : Option (CachedAnswer T) :=
  match c.answers.get path with
  | some hit => if c.isFresh now hit.since then some hit else none
  | none => none

def get (c : RequestCache T) (path : Route) (now : Int) : CacheReply T × RequestCache T :=
  match c.answer path now with
  | some hit => (.cached hit.request hit.value, c)
  | none =>
      match c.inFlight.get path with
      | some pending => (.promise pending, c)
      | none =>
          let request := c.requests.length
          let c' := { c with requests := c.requests ++ [⟨path, c.enabled, .inFlight⟩] }
          (.promise request,
            if c.enabled then { c' with inFlight := c.inFlight.set path request } else c')

/-- Change a request. -/
def update (c : RequestCache T) (r : Nat) (phase : RequestPhase T) : RequestCache T :=
  { c with requests := c.requests.modify r (.reach phase) }

/-- A request is fulfilled or rejected. -/
def settle (c : RequestCache T) (r : Nat) (result : Option T) : Option (RequestCache T) :=
  match c.requests[r]? with
  | some ⟨_, shared, .inFlight⟩ =>
      some (c.update r (if shared then
        match result with
        | some value => .fulfilled value
        | none => .rejected
      else .over result))
  | _ => none

def prune (c : RequestCache T) (now : Int) : RequestCache T :=
  { c with answers := c.answers.prune (fun size e =>
      size ≤ maxCacheEntries ∧ c.isFresh now e.2.since) }

/-- The callbacks that `get` puts on a request. -/
def callback (c : RequestCache T) (r : Nat) (now : Int) : Option (RequestCache T) :=
  match c.requests[r]? with
  | some ⟨path, _, .fulfilled value⟩ =>
      let c' := c.update r (.over (some value))
      -- Dropped by a write while in flight.
      if c.inFlight.get path ≠ some r then some c'
      else some ({ c' with
        inFlight := c.inFlight.delete path
        answers := (c.answers.delete path).set path ⟨now, value, r⟩ }.prune now)
  | some ⟨path, _, .rejected⟩ =>
      let c' := c.update r (.over none)
      if c.inFlight.get path = some r then some { c' with inFlight := c.inFlight.delete path }
      else some c'
  | _ => none

def delete (c : RequestCache T) (path : Route) : RequestCache T :=
  { c with answers := c.answers.delete path, inFlight := c.inFlight.delete path }

/-- Drop a path and everything under it. -/
def deleteTree (c : RequestCache T) (path : Route) : RequestCache T :=
  { c with
    answers := c.answers.keep (fun e => ¬ path <+: e.1)
    inFlight := c.inFlight.keep (fun e => ¬ path <+: e.1) }

/-- The value that a call has resolved to. -/
def resolved? (c : RequestCache T) : CacheReply T → Option T
  | .cached _ value => some value
  | .promise r => c.requests[r]?.bind (fun q => q.phase.value?)

/-! ### What a step does -/

/-- What becomes of a request: its path stays, and so does its value once it has one. -/
structure Continues (q q' : CacheRequest T) : Prop where
  path : q'.path = q.path
  value : ∀ value, q.phase.value? = some value → q'.phase.value? = some value

theorem Continues.refl (q : CacheRequest T) :
  Continues q q
  where
  path := rfl
  value _ h := h

theorem Continues.trans {q q' q'' : CacheRequest T} (h : Continues q q')
    (h' : Continues q' q'') :
  Continues q q''
  where
  path := h'.path.trans h.path
  value value hvalue := h'.value value (h.value value hvalue)

/-- The requests of a cache, at a later point. -/
def Later (c c' : RequestCache T) : Prop :=
  ∀ (r : Nat) (q : CacheRequest T), c.requests[r]? = some q →
    ∃ q', c'.requests[r]? = some q' ∧ Continues q q'

theorem Later.of_eq {c c' : RequestCache T} (h : c'.requests = c.requests) :
  Later c c'
  := fun r q hq => ⟨q, by rw [h, hq], Continues.refl q⟩

theorem Later.trans {c c' c'' : RequestCache T} (h : Later c c') (h' : Later c' c'') :
  Later c c''
  := by
  intro r q hq
  obtain ⟨q', hq', hcontinues⟩ := h r q hq
  obtain ⟨q'', hq'', hcontinues'⟩ := h' r q' hq'
  exact ⟨q'', hq'', hcontinues.trans hcontinues'⟩

theorem Later.length_le {c c' : RequestCache T} (h : Later c c') :
  c.requests.length ≤ c'.requests.length
  := by
  by_contra hlt
  have hlast := List.getElem?_eq_getElem (Nat.lt_of_not_le hlt)
  obtain ⟨q', hq', -⟩ := h _ _ hlast
  exact absurd (List.getElem?_eq_some_iff.mp hq').1 (Nat.lt_irrefl _)

/-- Where the entries of the maps come from, and what becomes of the requests. -/
structure Follows (c c' : RequestCache T) : Prop where
  answers : ∀ {k : Route} {a : CachedAnswer T}, (k, a) ∈ c'.answers.entries →
    (k, a) ∈ c.answers.entries ∨ (k, a.request) ∈ c.inFlight.entries ∧
      ∃ shared, c.requests[a.request]? = some ⟨k, shared, .fulfilled a.value⟩
  inFlight : ∀ {k : Route} {r : Nat}, (k, r) ∈ c'.inFlight.entries →
    (k, r) ∈ c.inFlight.entries ∨
    r = c.requests.length ∧ ∃ shared, c'.requests[r]? = some ⟨k, shared, .inFlight⟩
  requests : Later c c'
  size : c.answers.size ≤ maxCacheEntries → c'.answers.size ≤ maxCacheEntries

/-- A step that only drops entries. -/
structure Drops (c c' : RequestCache T) : Prop where
  answers : ∀ {e : Route × CachedAnswer T}, e ∈ c'.answers.entries → e ∈ c.answers.entries
  inFlight : ∀ {e : Route × Nat}, e ∈ c'.inFlight.entries → e ∈ c.inFlight.entries
  requests : c'.requests = c.requests
  size : c'.answers.size ≤ c.answers.size

theorem Drops.refl (c : RequestCache T) :
  Drops c c
  where
  answers h := h
  inFlight h := h
  requests := rfl
  size := Nat.le_refl _

theorem Drops.trans {c c' c'' : RequestCache T} (h : Drops c c') (h' : Drops c' c'') :
  Drops c c''
  where
  answers he := h.answers (h'.answers he)
  inFlight he := h.inFlight (h'.inFlight he)
  requests := h'.requests.trans h.requests
  size := Nat.le_trans h'.size h.size

theorem Drops.follows {c c' : RequestCache T} (h : Drops c c') :
  Follows c c'
  where
  answers he := .inl (h.answers he)
  inFlight he := .inl (h.inFlight he)
  requests := Later.of_eq h.requests
  size hsize := Nat.le_trans h.size hsize

theorem delete_drops (c : RequestCache T) (path : Route) :
  Drops c (c.delete path)
  where
  answers he := (OrderedMap.mem_delete.mp he).1
  inFlight he := (OrderedMap.mem_delete.mp he).1
  requests := rfl
  size := OrderedMap.size_delete_le path c.answers

theorem deleteTree_drops (c : RequestCache T) (path : Route) :
  Drops c (c.deleteTree path)
  where
  answers he := (OrderedMap.mem_keep.mp he).1
  inFlight he := (OrderedMap.mem_keep.mp he).1
  requests := rfl
  size := OrderedMap.size_keep_le _ c.answers

theorem deletes_drops (c : RequestCache T) (paths : List Route) :
  Drops c (paths.foldl delete c)
  := by
  induction paths generalizing c with
  | nil => apply Drops.refl
  | cons path paths ih =>
      rw [List.foldl_cons]
      apply (delete_drops c path).trans (ih _)

/-- A step that moves one request along. -/
theorem later_update {c : RequestCache T} {r : Nat} {phase : RequestPhase T}
    {q : CacheRequest T} (hq : c.requests[r]? = some q)
    (hvalue : ∀ value, q.phase.value? = some value → phase.value? = some value) :
  Later c (c.update r phase)
  := by
  intro i p hp
  unfold update
  dsimp only
  rw [List.getElem?_modify, Option.map_eq_map]
  by_cases hi : r = i
  · subst hi
    rw [hq, Option.some.injEq] at hp
    subst hp
    rw [hq]
    exact ⟨q.reach phase, by simp, rfl, hvalue⟩
  · rw [hp]
    exact ⟨p, by simp [hi], Continues.refl p⟩

theorem settle_follows {c c' : RequestCache T} {r : Nat} {result : Option T}
    (h : c.settle r result = some c') :
  Follows c c'
  := by
  unfold settle at h
  split at h
  · rename_i path shared hq
    cases h
    constructor
    · exact .inl
    · exact .inl
    · exact later_update hq (fun value hvalue => nomatch hvalue)
    · exact id
  · cases h

theorem size_prune_le (c : RequestCache T) (now : Int) :
  (c.prune now).answers.size ≤ maxCacheEntries
  := by
  apply OrderedMap.size_prune_le
  intro size e h
  rw [decide_eq_true_eq] at h
  exact h.1

theorem callback_follows {c c' : RequestCache T} {r : Nat} {now : Int}
    (h : c.callback r now = some c') :
  Follows c c'
  := by
  unfold callback at h
  split at h
  · rename_i path shared value hq
    have hrequests : Later c (c.update r (.over (some value))) :=
      later_update hq (fun _ hvalue => hvalue)
    dsimp only at h
    split at h
    · cases h
      exact ⟨.inl, .inl, hrequests, id⟩
    · rename_i hheld
      rw [not_not, OrderedMap.get_eq_some_iff] at hheld
      cases h
      constructor
      · intro k a ha
        have hset := OrderedMap.mem_of_mem_prune ha
        rw [OrderedMap.mem_set, Prod.mk.injEq] at hset
        rcases hset with ⟨rfl, rfl⟩ | ⟨hkept, -⟩
        · exact .inr ⟨hheld, shared, hq⟩
        · exact .inl (OrderedMap.mem_delete.mp hkept).1
      · intro k r' hr'
        exact .inl (OrderedMap.mem_delete.mp hr').1
      · exact hrequests
      · intro hsize
        apply size_prune_le
  · rename_i path shared hq
    have hrequests : Later c (c.update r (.over none)) :=
      later_update hq (fun _ hvalue => hvalue)
    dsimp only at h
    split at h
    · cases h
      exact ⟨.inl, fun hr => .inl (OrderedMap.mem_delete.mp hr).1, hrequests, id⟩
    · cases h
      exact ⟨.inl, .inl, hrequests, id⟩
  · cases h

theorem get_follows (c : RequestCache T) (path : Route) (now : Int) :
  Follows c (c.get path now).2
  := by
  have happend : ∀ {c' : RequestCache T} {q : CacheRequest T},
      c'.requests = c.requests ++ [q] → Later c c' := by
    intro c' q hrequests r p hp
    refine ⟨p, ?_, Continues.refl p⟩
    rw [hrequests, List.getElem?_append_left (List.getElem?_eq_some_iff.mp hp).1, hp]
  unfold get
  split
  · exact (Drops.refl c).follows
  · split
    · exact (Drops.refl c).follows
    · dsimp only
      split
      · refine ⟨.inl, ?_, happend rfl, id⟩
        intro k r hr
        rw [OrderedMap.mem_set, Prod.mk.injEq] at hr
        rcases hr with ⟨rfl, rfl⟩ | ⟨hr, -⟩
        · exact .inr ⟨rfl, c.enabled, List.getElem?_concat_length⟩
        · exact .inl hr
      · exact ⟨.inl, .inl, happend rfl, id⟩

/-! ### What the entries are of -/

/-- An answer is the value of its request, and a request in flight is one for its path; there
are not too many answers. -/
structure Sound (c : RequestCache T) : Prop where
  answers : ∀ {k : Route} {a : CachedAnswer T}, (k, a) ∈ c.answers.entries →
    ∃ q, c.requests[a.request]? = some q ∧ q.path = k ∧ q.phase.value? = some a.value
  inFlight : ∀ {k : Route} {r : Nat}, (k, r) ∈ c.inFlight.entries →
    ∃ q, c.requests[r]? = some q ∧ q.path = k
  size : c.answers.size ≤ maxCacheEntries

theorem sound_new (ttlMs : Option Int) :
  Sound (new ttlMs : RequestCache T)
  where
  answers h := nomatch h
  inFlight h := nomatch h
  size := Nat.zero_le _

theorem Sound.follows {c c' : RequestCache T} (h : Sound c) (hfollows : Follows c c') :
  Sound c'
  := by
  constructor
  · intro k a ha
    obtain ⟨q, hq, hpath, hvalue⟩ : ∃ q, c.requests[a.request]? = some q ∧ q.path = k ∧
        q.phase.value? = some a.value := by
      rcases hfollows.answers ha with hold | ⟨-, shared, hnew⟩
      · exact h.answers hold
      · exact ⟨_, hnew, rfl, rfl⟩
    obtain ⟨q', hq', hcontinues⟩ := hfollows.requests _ _ hq
    exact ⟨q', hq', by rw [hcontinues.path, hpath], hcontinues.value _ hvalue⟩
  · intro k r hr
    rcases hfollows.inFlight hr with hold | ⟨-, shared, hnew⟩
    · obtain ⟨q, hq, hpath⟩ := h.inFlight hold
      obtain ⟨q', hq', hcontinues⟩ := hfollows.requests _ _ hq
      exact ⟨q', hq', by rw [hcontinues.path, hpath]⟩
    · exact ⟨_, hnew, rfl⟩
  · exact hfollows.size h.size

/-! ### What is newer than a point of a run -/

/-- The answers for the paths in `K` are of requests that were not made before the `n`-th, and
so are the requests in flight. -/
structure FreshFrom (n : Nat) (K : Route → Prop) (c : RequestCache T) : Prop where
  answers : ∀ {k : Route} {a : CachedAnswer T}, (k, a) ∈ c.answers.entries → K k →
    n ≤ a.request
  inFlight : ∀ {k : Route} {r : Nat}, (k, r) ∈ c.inFlight.entries → K k → n ≤ r
  made : n ≤ c.requests.length

theorem FreshFrom.follows {n : Nat} {K : Route → Prop} {c c' : RequestCache T}
    (h : FreshFrom n K c) (hfollows : Follows c c') :
  FreshFrom n K c'
  := by
  constructor
  · intro k a ha hk
    rcases hfollows.answers ha with hold | ⟨hflight, -⟩
    · exact h.answers hold hk
    · exact h.inFlight hflight hk
  · intro k r hr hk
    rcases hfollows.inFlight hr with hold | ⟨rfl, -⟩
    · exact h.inFlight hold hk
    · exact h.made
  · exact Nat.le_trans h.made hfollows.requests.length_le

theorem FreshFrom.mono {n : Nat} {K K' : Route → Prop} {c : RequestCache T}
    (h : FreshFrom n K c) (hK : ∀ k, K' k → K k) :
  FreshFrom n K' c
  where
  answers ha hk := h.answers ha (hK _ hk)
  inFlight hr hk := h.inFlight hr (hK _ hk)
  made := h.made

theorem freshFrom_none (c : RequestCache T) :
  FreshFrom c.requests.length (fun _ => False) c
  where
  answers _ hk := hk.elim
  inFlight _ hk := hk.elim
  made := Nat.le_refl _

theorem FreshFrom.delete {n : Nat} {K : Route → Prop} {c : RequestCache T}
    (h : FreshFrom n K c) (path : Route) :
  FreshFrom n (fun k => K k ∨ k = path) (c.delete path)
  where
  answers ha hk := by
    obtain ⟨hold, hne⟩ := OrderedMap.mem_delete.mp ha
    exact h.answers hold (hk.resolve_right hne)
  inFlight hr hk := by
    obtain ⟨hold, hne⟩ := OrderedMap.mem_delete.mp hr
    exact h.inFlight hold (hk.resolve_right hne)
  made := h.made

theorem FreshFrom.deletes {n : Nat} {K : Route → Prop} {c : RequestCache T}
    (h : FreshFrom n K c) (paths : List Route) :
  FreshFrom n (fun k => K k ∨ k ∈ paths) (paths.foldl RequestCache.delete c)
  := by
  induction paths generalizing c K with
  | nil =>
      apply h.mono
      simp
  | cons path paths ih =>
      rw [List.foldl_cons]
      apply (ih (h.delete path)).mono
      intro k hk
      rw [List.mem_cons] at hk
      tauto

theorem FreshFrom.deleteTree {n : Nat} {K : Route → Prop} {c : RequestCache T}
    (h : FreshFrom n K c) (path : Route) :
  FreshFrom n (fun k => K k ∨ path <+: k) (c.deleteTree path)
  where
  answers ha hk := by
    obtain ⟨hold, hkept⟩ := OrderedMap.mem_keep.mp ha
    rw [decide_eq_true_eq] at hkept
    exact h.answers hold (hk.resolve_right hkept)
  inFlight hr hk := by
    obtain ⟨hold, hkept⟩ := OrderedMap.mem_keep.mp hr
    rw [decide_eq_true_eq] at hkept
    exact h.inFlight hold (hk.resolve_right hkept)
  made := h.made

/-! ### What a call is answered with -/

theorem answer_mem {c : RequestCache T} {path : Route} {now : Int} {a : CachedAnswer T}
    (h : c.answer path now = some a) :
  (path, a) ∈ c.answers.entries
  := by
  unfold answer at h
  split at h
  · rename_i hit hget
    split at h
    · cases h
      exact OrderedMap.get_eq_some_iff.mp hget
    · cases h
  · cases h

/-- A value with which a request for the path that is not older than `n` was fulfilled. -/
def LoadedFrom (c : RequestCache T) (n : Nat) (path : Route) (value : T) : Prop :=
  ∃ r q, n ≤ r ∧ c.requests[r]? = some q ∧ q.path = path ∧ q.phase.value? = some value

theorem LoadedFrom.later {c c' : RequestCache T} {n : Nat} {path : Route} {value : T}
    (h : LoadedFrom c n path value) (hlater : Later c c') :
  LoadedFrom c' n path value
  := by
  obtain ⟨r, q, hr, hq, hpath, hvalue⟩ := h
  obtain ⟨q', hq', hcontinues⟩ := hlater r q hq
  exact ⟨r, q', hr, hq', by rw [hcontinues.path, hpath], hcontinues.value _ hvalue⟩

/-- A cached answer is of a request that is new enough. -/
theorem FreshFrom.loadedFrom {n : Nat} {K : Route → Prop} {c : RequestCache T}
    (h : FreshFrom n K c) (hsound : Sound c) {path : Route} (hpath : K path)
    {a : CachedAnswer T} (ha : (path, a) ∈ c.answers.entries) :
  LoadedFrom c n path a.value
  := by
  obtain ⟨q, hq, hq'⟩ := hsound.answers ha
  exact ⟨a.request, q, h.answers ha hpath, hq, hq'⟩

theorem get_cases (c : RequestCache T) (path : Route) (now : Int) :
  (∃ a, (path, a) ∈ c.answers.entries ∧ (c.get path now).1 = .cached a.request a.value) ∨
    ∃ r, (c.get path now).1 = .promise r ∧
      ((path, r) ∈ c.inFlight.entries ∨ r = c.requests.length ∧
        ∃ q, (c.get path now).2.requests[r]? = some q ∧ q.path = path)
  := by
  unfold get
  split
  · rename_i hit hanswer
    exact .inl ⟨hit, answer_mem hanswer, rfl⟩
  · right
    split
    · rename_i pending hget
      exact ⟨pending, rfl, .inl (OrderedMap.get_eq_some_iff.mp hget)⟩
    · refine ⟨_, rfl, .inr ⟨rfl, ⟨path, c.enabled, .inFlight⟩, ?_, rfl⟩⟩
      dsimp only
      split <;> exact List.getElem?_concat_length

/-- What a call resolves to was loaded by a request that is new enough. -/
theorem FreshFrom.resolved {n : Nat} {K : Route → Prop} {c : RequestCache T}
    (h : FreshFrom n K c) (hsound : Sound c) {path : Route} (hpath : K path) {now : Int}
    {value : T} {c' : RequestCache T} (hlater : Later (c.get path now).2 c')
    (hresolved : c'.resolved? (c.get path now).1 = some value) :
  LoadedFrom c' n path value
  := by
  have hsame : Later c c' := (get_follows c path now).requests.trans hlater
  rcases get_cases c path now with ⟨a, ha, hreply⟩ | ⟨r, hreply, hr⟩
  · rw [hreply] at hresolved
    cases hresolved
    exact (h.loadedFrom hsound hpath ha).later hsame
  · rw [hreply] at hresolved
    obtain ⟨q', hq', hvalue⟩ := Option.bind_eq_some_iff.mp hresolved
    obtain ⟨q, hr, hq, hqpath⟩ : ∃ q, n ≤ r ∧
        (∃ q'', c'.requests[r]? = some q'' ∧ Continues q q'') ∧ q.path = path := by
      rcases hr with hr | ⟨rfl, q, hq, hqpath⟩
      · obtain ⟨q, hq, hqpath⟩ := hsound.inFlight hr
        exact ⟨q, h.inFlight hr hpath, hsame r q hq, hqpath⟩
      · exact ⟨q, h.made, hlater _ q hq, hqpath⟩
    obtain ⟨q'', hq'', hcontinues⟩ := hq
    rw [hq', Option.some.injEq] at hq''
    subst hq''
    exact ⟨r, q', hr, hq', by rw [hcontinues.path, hqpath], hvalue⟩

end RequestCache

end

end AgentFs.JustBash

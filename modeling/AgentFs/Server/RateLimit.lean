import Mathlib.Algebra.Order.Group.Int
import AgentFs.Lib.OrderedMap
import AgentFs.Lib.SlidingWindow
import AgentFs.Paths

/-!
# Rate limits

The sliding-window limiters of the server: `rateLimitMiddleware`, by API key, and
`ipRateLimitMiddleware`, by address.  A request is handled without an await between reading the
clock and storing its time; a timer deletes the times that no longer count.  Times are in
milliseconds.
-/

namespace AgentFs

open SlidingWindow

/-! ### The two limiters -/

/-- What a limiter reads of a request: three headers, and the address of the socket. -/
structure LimitedRequest where
  authorization : Option Text := none
  xForwardedFor : Option Text := none
  flyClientIp : Option Text := none
  requestIP : Option Text := none
  deriving DecidableEq, Repr

/-- An answer with status 429. -/
structure RateLimited where
  /-- `Retry-After`, in seconds; none stands for `NaN`. -/
  retryAfter : Option Int
  headers : List (String × String)
  body : String
  deriving DecidableEq, Repr

/-- A middleware: the key of a request, and the other headers and the body of its 429. -/
structure RateLimiter where
  key : LimitedRequest → Text
  headers : List (String × String)
  body : String

/-- The API key of a request, else the address that a proxy reports. -/
def apiKeyOrIp (request : LimitedRequest) : Text :=
  let authHeader := request.authorization.getD []
  if "Bearer ".toList <+: authHeader then authHeader.drop 7
  else request.xForwardedFor.getD "unknown".toList

/-- The address of the client; `flyAppName` is `FLY_APP_NAME` of the environment. -/
def clientIp (flyAppName : Option Text) (request : LimitedRequest) : Text :=
  let socket := request.requestIP.getD "unknown".toList
  if flyAppName.getD [] ≠ [] ∧ request.flyClientIp.getD [] ≠ [] then
    request.flyClientIp.getD socket
  else socket

def rateLimitMiddleware : RateLimiter where
  key := apiKeyOrIp
  headers := [("Content-Type", "application/json")]
  body := "\x7b\"error\":\"RATE_LIMITED\",\"message\":\"Too many requests\"\x7d"

def ipRateLimitMiddleware (flyAppName : Option Text) : RateLimiter where
  key := clientIp flyAppName
  headers :=
    [ ("Content-Type", "text/plain; charset=utf-8"), ("Cache-Control", "no-store"),
      ("X-Content-Type-Options", "nosniff") ]
  body := "Too many requests"

/-- The times of the accepted requests of a key, the oldest first. -/
abbrev Windows := OrderedMap Text (List Int)

def Windows.timestamps (windows : Windows) (key : Text) : List Int :=
  (windows.get key).getD []

def windowMs : Int := 60000

/-- `Math.ceil((oldest + 60_000 - now) / 1000)`. -/
def retryAfterOf (oldest now : Int) : Int :=
  -((now - oldest - windowMs) / 1000)

/-- What a limiter does with a request: the windows it leaves, and its answer when it refuses
the request. -/
def RateLimiter.handle (limiter : RateLimiter) (requestsPerMinute : ℕ) (windows : Windows)
    (request : LimitedRequest) (now : Int) : Windows × Option RateLimited :=
  let key := limiter.key request
  let timestamps := live windowMs now (windows.timestamps key)
  if requestsPerMinute ≤ timestamps.length then
    (windows, some ⟨timestamps.head?.map (retryAfterOf · now), limiter.headers, limiter.body⟩)
  else (windows.set key (timestamps ++ [now]), none)

/-- What the timer leaves. -/
def cleanUp (now : Int) (windows : Windows) : Windows :=
  windows.filterMap (fun timestamps =>
    let filtered := live windowMs now timestamps
    if filtered = [] then none else some filtered)

/-! ### Runs -/

/-- A request arrives, or the timer fires. -/
inductive LimiterEvent where
  | request (request : LimitedRequest) (now : Int)
  | cleanUp (now : Int)
  deriving DecidableEq, Repr

def LimiterEvent.time : LimiterEvent → Int
  | request _ now => now
  | cleanUp now => now

def LimiterEvent.isRequest : LimiterEvent → Bool
  | request _ _ => true
  | cleanUp _ => false

/-- The windows of a limiter, and the requests with its answers, the newest first. -/
structure LimiterRun where
  windows : Windows
  answers : List (LimitedRequest × Int × Option RateLimited)

namespace RateLimiter

variable (limiter : RateLimiter) (requestsPerMinute : ℕ)

def step (run : LimiterRun) : LimiterEvent → LimiterRun
  | .request request now =>
      let handled := limiter.handle requestsPerMinute run.windows request now
      ⟨handled.1, (request, now, handled.2) :: run.answers⟩
  | .cleanUp now => ⟨AgentFs.cleanUp now run.windows, run.answers⟩

def run (events : List LimiterEvent) : LimiterRun :=
  events.foldl (limiter.step requestsPerMinute) ⟨.empty, []⟩

/-- The times of the accepted requests of a key, the newest first. -/
def accepted (key : Text) (answers : List (LimitedRequest × Int × Option RateLimited)) :
    List Int :=
  (answers.filter (fun x => limiter.key x.1 = key ∧ x.2.2 = none)).map (fun x => x.2.1)

/-- The request is not one of the key. -/
def Spares (key : Text) : LimiterEvent → Prop
  | .request request _ => limiter.key request ≠ key
  | .cleanUp _ => True

end RateLimiter

/-! ### The windows of one key -/

@[simp]
theorem timestamps_empty (key : Text) :
  Windows.timestamps .empty key = []
  := rfl

theorem timestamps_set (windows : Windows) (key key' : Text) (timestamps : List Int) :
  Windows.timestamps (windows.set key timestamps) key' =
    if key' = key then timestamps else windows.timestamps key'
  := by
  unfold Windows.timestamps
  rw [OrderedMap.get_set]
  split <;> rfl

theorem timestamps_cleanUp (now : Int) (windows : Windows) (key : Text) :
  (cleanUp now windows).timestamps key = live windowMs now (windows.timestamps key)
  := by
  unfold cleanUp Windows.timestamps
  rw [OrderedMap.get_filterMap]
  cases windows.get key with
  | none => rfl
  | some timestamps =>
      dsimp only [Option.bind_some, Option.getD_some]
      split
      · rename_i hnil
        rw [hnil, Option.getD_none]
      · rfl

/-- After the seconds of `Retry-After` the oldest request no longer counts. -/
theorem oldest_le_of_retryAfter {oldest now now' : Int}
    (h : now + retryAfterOf oldest now * 1000 ≤ now') :
  oldest ≤ now' - windowMs
  := by
  unfold retryAfterOf windowMs at h
  unfold windowMs
  omega

namespace RateLimiter

variable {limiter : RateLimiter} {requestsPerMinute : ℕ} {windows : Windows}
  {request : LimitedRequest} {now : Int}

/-- A request is refused exactly when the limit is reached by the times that count. -/
theorem handle_accepts_iff :
  (limiter.handle requestsPerMinute windows request now).2 = none ↔
    (live windowMs now (windows.timestamps (limiter.key request))).length < requestsPerMinute
  := by
  unfold handle
  dsimp only
  split
  · rename_i hfull
    simp [hfull]
  · rename_i hfree
    simpa using hfree

theorem handle_accepted
    (h : (limiter.handle requestsPerMinute windows request now).2 = none) :
  (limiter.handle requestsPerMinute windows request now).1 = windows.set (limiter.key request)
    (live windowMs now (windows.timestamps (limiter.key request)) ++ [now])
  := by
  have hfree := handle_accepts_iff.mp h
  unfold handle
  rw [if_neg (Nat.not_le_of_lt hfree)]

theorem handle_refused
    (h : (limiter.handle requestsPerMinute windows request now).2 ≠ none) :
  (limiter.handle requestsPerMinute windows request now).1 = windows
  := by
  have hfull := Nat.le_of_not_lt (fun hfree => h (handle_accepts_iff.mpr hfree))
  unfold handle
  rw [if_pos hfull]

/-- The oldest time that counts is the one `Retry-After` is computed from. -/
theorem handle_retryAfter {refusal : RateLimited} {retry : Int}
    (h : (limiter.handle requestsPerMinute windows request now).2 = some refusal)
    (hretry : refusal.retryAfter = some retry) :
  ∃ oldest rest, live windowMs now (windows.timestamps (limiter.key request)) = oldest :: rest ∧
    retry = retryAfterOf oldest now
  := by
  unfold handle at h
  dsimp only at h
  split at h
  · cases h
    dsimp only at hretry
    obtain ⟨oldest, holdest, rfl⟩ := Option.map_eq_some_iff.mp hretry
    obtain ⟨rest, hrest⟩ := List.head?_eq_some_iff.mp holdest
    exact ⟨oldest, rest, hrest, rfl⟩
  · cases h

/-! ### What a run keeps -/

/-- The windows of every key count for the accepted requests of the key. -/
structure Sound (limiter : RateLimiter) (requestsPerMinute : ℕ) (clock : Int) (run : LimiterRun) :
    Prop where
  spaced : ∀ key, Spaced windowMs requestsPerMinute (limiter.accepted key run.answers)
  past : ∀ key, ∀ t ∈ limiter.accepted key run.answers, t ≤ clock
  agrees : ∀ key, Agrees windowMs clock (limiter.accepted key run.answers)
    (run.windows.timestamps key)
  bounded : ∀ key, (run.windows.timestamps key).length ≤ requestsPerMinute

theorem Sound.empty (clock : Int) :
  Sound limiter requestsPerMinute clock ⟨.empty, []⟩
  where
  spaced _ := .nil
  past _ _ ht := nomatch ht
  agrees _ := Agrees.nil windowMs clock
  bounded _ := Nat.zero_le _

theorem Sound.mono {clock clock' : Int} {run : LimiterRun}
    (h : Sound limiter requestsPerMinute clock run) (hclock : clock ≤ clock') :
  Sound limiter requestsPerMinute clock' run
  where
  spaced := h.spaced
  past key t ht := le_trans (h.past key t ht) hclock
  agrees key := (h.agrees key).mono hclock
  bounded := h.bounded

/-- The limit counts the accepted requests of the key in the preceding minute. -/
theorem Sound.length_live {run : LimiterRun} (h : Sound limiter requestsPerMinute now run)
    (key : Text) :
  (live windowMs now (run.windows.timestamps key)).length =
    (live windowMs now (limiter.accepted key run.answers)).length
  := (h.agrees key now le_rfl).length_eq

theorem accepted_cons_accepted (key : Text)
    (answers : List (LimitedRequest × Int × Option RateLimited)) :
  limiter.accepted key ((request, now, none) :: answers) =
    if limiter.key request = key then now :: limiter.accepted key answers
    else limiter.accepted key answers
  := by
  unfold accepted
  split
  · rename_i hkey
    simp [hkey]
  · rename_i hkey
    simp [hkey]

theorem accepted_cons_refused (key : Text) (refusal : RateLimited)
    (answers : List (LimitedRequest × Int × Option RateLimited)) :
  limiter.accepted key ((request, now, some refusal) :: answers) = limiter.accepted key answers
  := by
  unfold accepted
  simp

theorem Sound.handle {run : LimiterRun} (h : Sound limiter requestsPerMinute now run)
    (request : LimitedRequest) :
  Sound limiter requestsPerMinute now
    (limiter.step requestsPerMinute run (.request request now))
  := by
  unfold step
  dsimp only
  cases hanswer : (limiter.handle requestsPerMinute run.windows request now).2 with
  | some refusal =>
      rw [handle_refused (by rw [hanswer]; exact nofun)]
      constructor
      · simpa only [accepted_cons_refused] using h.spaced
      · simpa only [accepted_cons_refused] using h.past
      · simpa only [accepted_cons_refused] using h.agrees
      · exact h.bounded
  | none =>
      have hfree := handle_accepts_iff.mp hanswer
      have hcount := h.length_live (limiter.key request)
      rw [handle_accepted hanswer]
      constructor
      · intro key
        rw [accepted_cons_accepted]
        split
        · rename_i hkey
          subst hkey
          apply Spaced.accept (h.spaced _) (h.past _)
          rwa [← hcount]
        · apply h.spaced
      · intro key t ht
        rw [accepted_cons_accepted] at ht
        split at ht
        · rcases List.mem_cons.mp ht with rfl | ht
          · exact le_rfl
          · apply h.past key t ht
        · apply h.past key t ht
      · intro key
        rw [accepted_cons_accepted, timestamps_set]
        split
        · rename_i hkey
          subst hkey
          rw [if_pos rfl]
          apply (h.agrees _).accept
        · rename_i hkey
          rw [if_neg (Ne.symm hkey)]
          apply h.agrees
      · intro key
        rw [timestamps_set]
        split
        · rw [List.length_append, List.length_singleton]
          exact hfree
        · apply h.bounded

theorem Sound.cleanUp {run : LimiterRun} (h : Sound limiter requestsPerMinute now run) :
  Sound limiter requestsPerMinute now (limiter.step requestsPerMinute run (.cleanUp now))
  := by
  constructor
  · exact h.spaced
  · exact h.past
  · intro key
    unfold step
    rw [timestamps_cleanUp]
    apply (h.agrees key).live
  · intro key
    unfold step
    rw [timestamps_cleanUp]
    exact Nat.le_trans (length_live_le _ _ _) (h.bounded key)

theorem Sound.step {clock : Int} {run : LimiterRun}
    (h : Sound limiter requestsPerMinute clock run) {e : LimiterEvent} (he : clock ≤ e.time) :
  Sound limiter requestsPerMinute e.time (limiter.step requestsPerMinute run e)
  := by
  cases e with
  | request request now => apply (h.mono he).handle
  | cleanUp now => apply (h.mono he).cleanUp

theorem Sound.foldl {events : List LimiterEvent} :
  ∀ {clock : Int} {run : LimiterRun}, Sound limiter requestsPerMinute clock run →
    (∀ e ∈ events, clock ≤ e.time) → events.Pairwise (fun e f => e.time ≤ f.time) →
    ∀ later, clock ≤ later → (∀ e ∈ events, e.time ≤ later) →
      Sound limiter requestsPerMinute later (events.foldl (limiter.step requestsPerMinute) run)
  := by
  induction events with
  | nil =>
      intro clock run h _ _ later hlater _
      exact h.mono hlater
  | cons e events ih =>
      intro clock run h hclock hordered later _ hlast
      obtain ⟨hfirst, hordered⟩ := List.pairwise_cons.mp hordered
      apply ih (h.step (hclock e List.mem_cons_self)) hfirst hordered later
        (hlast e List.mem_cons_self)
      intro f hf
      exact hlast f (List.mem_cons_of_mem e hf)

/-- After a run whose events are in order the windows are sound at every later time. -/
theorem sound_run (limiter : RateLimiter) (requestsPerMinute : ℕ) {events : List LimiterEvent}
    (hordered : events.Pairwise (fun e f => e.time ≤ f.time)) {later : Int}
    (hlast : ∀ e ∈ events, e.time ≤ later) :
  Sound limiter requestsPerMinute later (limiter.run requestsPerMinute events)
  := by
  cases events with
  | nil => exact .empty later
  | cons e events =>
      have hfirst := (List.pairwise_cons.mp hordered).1
      apply (Sound.empty e.time).foldl _ hordered later (hlast e List.mem_cons_self) hlast
      intro f hf
      rcases List.mem_cons.mp hf with rfl | hf
      · exact le_rfl
      · exact hfirst f hf

/-! ### Pruning -/

/-- Windows that decide alike from `clock` on. -/
def SameFrom (clock : Int) (windows windows' : Windows) : Prop :=
  ∀ key later, clock ≤ later →
    live windowMs later (windows.timestamps key) = live windowMs later (windows'.timestamps key)

theorem SameFrom.handle {windows' : Windows} (h : SameFrom now windows windows')
    (limiter : RateLimiter) (requestsPerMinute : ℕ) (request : LimitedRequest) :
  (limiter.handle requestsPerMinute windows request now).2 =
      (limiter.handle requestsPerMinute windows' request now).2 ∧
    SameFrom now (limiter.handle requestsPerMinute windows request now).1
      (limiter.handle requestsPerMinute windows' request now).1
  := by
  have hlive := h (limiter.key request) now le_rfl
  unfold RateLimiter.handle
  dsimp only
  rw [hlive]
  split
  · exact ⟨rfl, h⟩
  · refine ⟨rfl, ?_⟩
    intro key later hlater
    rw [timestamps_set, timestamps_set]
    split
    · rfl
    · apply h key later hlater

theorem SameFrom.mono {clock clock' : Int} {windows' : Windows}
    (h : SameFrom clock windows windows') (hclock : clock ≤ clock') :
  SameFrom clock' windows windows'
  := fun key later hlater => h key later (le_trans hclock hlater)

theorem SameFrom.cleanUp {windows' : Windows} (h : SameFrom now windows windows') :
  SameFrom now (AgentFs.cleanUp now windows) windows'
  := by
  intro key later hlater
  rw [timestamps_cleanUp, live_live hlater]
  apply h key later hlater

/-- Runs from windows that decide alike, one of them without the timer. -/
theorem foldl_answers_filter {events : List LimiterEvent} :
  ∀ (clock : Int) (run run' : LimiterRun), SameFrom clock run.windows run'.windows →
    run.answers = run'.answers → (∀ e ∈ events, clock ≤ e.time) →
    events.Pairwise (fun e f => e.time ≤ f.time) →
    (events.foldl (limiter.step requestsPerMinute) run).answers =
      ((events.filter LimiterEvent.isRequest).foldl (limiter.step requestsPerMinute) run').answers
  := by
  induction events with
  | nil =>
      intro clock run run' _ hanswers _ _
      exact hanswers
  | cons e events ih =>
      intro clock run run' h hanswers hclock hordered
      obtain ⟨hfirst, hrest⟩ := List.pairwise_cons.mp hordered
      have hnow := h.mono (hclock e List.mem_cons_self)
      cases e with
      | request request now =>
          obtain ⟨hanswer, hsame⟩ := hnow.handle limiter requestsPerMinute request
          rw [List.filter_cons_of_pos rfl, List.foldl_cons, List.foldl_cons]
          apply ih _ _ _ hsame _ hfirst hrest
          unfold step
          dsimp only [LimiterEvent.time] at hanswer ⊢
          rw [hanswer, hanswers]
      | cleanUp now =>
          rw [List.filter_cons_of_neg Bool.false_ne_true, List.foldl_cons]
          exact ih now (limiter.step requestsPerMinute run (.cleanUp now)) run' hnow.cleanUp
            hanswers hfirst hrest

/-! ### Between two requests of a key -/

/-- Without a request of the key, what counts of its window only gets less. -/
theorem live_foldl {key : Text} {later : Int} {events : List LimiterEvent} :
  ∀ (run : LimiterRun), (∀ e ∈ events, limiter.Spares key e) → (∀ e ∈ events, e.time ≤ later) →
    live windowMs later
        ((events.foldl (limiter.step requestsPerMinute) run).windows.timestamps key) =
      live windowMs later (run.windows.timestamps key)
  := by
  induction events with
  | nil =>
      intro run _ _
      rfl
  | cons e events ih =>
      intro run hspares hlater
      rw [List.foldl_cons, ih _ (fun f hf => hspares f (List.mem_cons_of_mem e hf))
        (fun f hf => hlater f (List.mem_cons_of_mem e hf))]
      have hspare := hspares e List.mem_cons_self
      have htime := hlater e List.mem_cons_self
      cases e with
      | request request now =>
          unfold step
          dsimp only
          cases hanswer : (limiter.handle requestsPerMinute run.windows request now).2 with
          | some refusal => rw [handle_refused (by rw [hanswer]; exact nofun)]
          | none => rw [handle_accepted hanswer, timestamps_set, if_neg (Ne.symm hspare)]
      | cleanUp now =>
          unfold step
          dsimp only
          rw [timestamps_cleanUp]
          apply live_live htime

/-- When the oldest time that counted no longer does, there is room again. -/
theorem length_live_lt {run : LimiterRun} (h : Sound limiter requestsPerMinute now run)
    {key : Text} {oldest now' : Int} {rest : List Int}
    (hlive : live windowMs now (run.windows.timestamps key) = oldest :: rest)
    (hnow : now ≤ now') (hold : oldest ≤ now' - windowMs) :
  (live windowMs now' (run.windows.timestamps key)).length < requestsPerMinute
  := by
  have hrest : live windowMs now' (run.windows.timestamps key) = live windowMs now' rest := by
    rw [← live_live hnow, hlive]
    exact List.filter_cons_of_neg (by simpa using hold)
  have hshorter := length_live_le windowMs now (run.windows.timestamps key)
  rw [hlive, List.length_cons] at hshorter
  rw [hrest]
  calc (live windowMs now' rest).length
      ≤ rest.length := length_live_le windowMs now' rest
    _ < (run.windows.timestamps key).length := hshorter
    _ ≤ requestsPerMinute := h.bounded key

/-! ### The law -/

variable (limiter : RateLimiter) (requestsPerMinute : ℕ) {events : List LimiterEvent}

theorem length_window_le (hordered : events.Pairwise (fun e f => e.time ≤ f.time)) (key : Text)
    {window : Int → Prop} [DecidablePred window]
    (hwidth : ∀ s t, window s → window t → t - windowMs < s) :
  ((limiter.accepted key (limiter.run requestsPerMinute events).answers).filter window).length ≤
    requestsPerMinute
  := by
  obtain ⟨last, hlast⟩ : ∃ last, ∀ e ∈ events, e.time ≤ last := by
    clear hordered
    induction events with
    | nil => exact ⟨0, nofun⟩
    | cons e events ih =>
        obtain ⟨last, hlast⟩ := ih
        refine ⟨max e.time last, ?_⟩
        intro f hf
        rcases List.mem_cons.mp hf with rfl | hf
        · apply le_max_left
        · apply le_trans (hlast f hf) (le_max_right _ _)
  apply ((sound_run limiter requestsPerMinute hordered hlast).spaced key).length_filter_le hwidth

/-- The events before a request are sound at its time. -/
theorem sound_before {before after : List LimiterEvent} {request : LimitedRequest} {now : Int}
    (hordered : (before ++ .request request now :: after).Pairwise (fun e f => e.time ≤ f.time)) :
  Sound limiter requestsPerMinute now (limiter.run requestsPerMinute before)
  := by
  obtain ⟨hbefore, -, hlast⟩ := List.pairwise_append.mp hordered
  apply sound_run limiter requestsPerMinute hbefore
  intro e he
  exact hlast e he _ List.mem_cons_self

theorem accepts_of_few {before after : List LimiterEvent} {request : LimitedRequest} {now : Int}
    (hordered : (before ++ .request request now :: after).Pairwise (fun e f => e.time ≤ f.time))
    (hfew : ((limiter.accepted (limiter.key request)
      (limiter.run requestsPerMinute before).answers).filter
        (fun t => now - windowMs < t ∧ t ≤ now)).length < requestsPerMinute) :
  (limiter.handle requestsPerMinute (limiter.run requestsPerMinute before).windows
    request now).2 = none
  := by
  have hsound := sound_before limiter requestsPerMinute hordered
  have hall : live windowMs now (limiter.accepted (limiter.key request)
        (limiter.run requestsPerMinute before).answers) =
      (limiter.accepted (limiter.key request)
        (limiter.run requestsPerMinute before).answers).filter
          (fun t => now - windowMs < t ∧ t ≤ now) := by
    apply List.filter_congr
    intro t ht
    simp [hsound.past _ t ht]
  apply handle_accepts_iff.mpr
  rw [hsound.length_live, hall]
  exact hfew

theorem accepts_after_retry {before between after : List LimiterEvent}
    {request request' : LimitedRequest} {now now' : Int}
    (hordered : (before ++ .request request now ::
      (between ++ .request request' now' :: after)).Pairwise (fun e f => e.time ≤ f.time))
    (hkey : limiter.key request' = limiter.key request)
    (hspares : ∀ e ∈ between, limiter.Spares (limiter.key request) e)
    {refusal : RateLimited} {retry : Int}
    (hrefused : (limiter.handle requestsPerMinute (limiter.run requestsPerMinute before).windows
      request now).2 = some refusal)
    (hretry : refusal.retryAfter = some retry) (hnow' : now + retry * 1000 ≤ now') :
  (limiter.handle requestsPerMinute
    (limiter.run requestsPerMinute (before ++ .request request now :: between)).windows
    request' now').2 = none
  := by
  have hsound := sound_before limiter requestsPerMinute hordered
  obtain ⟨hfirst, hrest⟩ := List.pairwise_cons.mp (List.pairwise_append.mp hordered).2.1
  have hlast := (List.pairwise_append.mp hrest).2.2
  obtain ⟨oldest, rest, hlive, rfl⟩ := handle_retryAfter hrefused hretry
  have hkept : (limiter.step requestsPerMinute (limiter.run requestsPerMinute before)
      (.request request now)).windows = (limiter.run requestsPerMinute before).windows :=
    handle_refused (by rw [hrefused]; exact nofun)
  have hbetween : limiter.run requestsPerMinute (before ++ .request request now :: between) =
      between.foldl (limiter.step requestsPerMinute) (limiter.step requestsPerMinute
        (limiter.run requestsPerMinute before) (.request request now)) := by
    unfold run
    rw [List.foldl_append, List.foldl_cons]
  have hlater : ∀ e ∈ between, e.time ≤ now' := by
    intro e he
    exact hlast e he _ List.mem_cons_self
  apply handle_accepts_iff.mpr
  rw [hkey, hbetween, live_foldl _ hspares hlater, hkept]
  apply length_live_lt hsound hlive _ (oldest_le_of_retryAfter hnow')
  exact hfirst _ (List.mem_append_right _ List.mem_cons_self)

/-- The timer changes no answer. -/
theorem answers_filter (hordered : events.Pairwise (fun e f => e.time ≤ f.time)) :
  (limiter.run requestsPerMinute events).answers =
    (limiter.run requestsPerMinute (events.filter LimiterEvent.isRequest)).answers
  := by
  cases events with
  | nil => rfl
  | cons e events =>
      have hfirst := (List.pairwise_cons.mp hordered).1
      apply foldl_answers_filter e.time _ _ (fun _ _ _ => rfl) rfl _ hordered
      intro f hf
      rcases List.mem_cons.mp hf with rfl | hf
      · exact le_rfl
      · exact hfirst f hf

end RateLimiter

/-- However the requests and the timer come, in order: no key gets more than the limit in any
minute, no request is refused while fewer were accepted in the minute before it, a request
after `Retry-After` is accepted, and the timer changes no answer. -/
theorem rate_limiter_slides (limiter : RateLimiter) (requestsPerMinute : ℕ)
    {events : List LimiterEvent} (hordered : events.Pairwise (fun e f => e.time ≤ f.time)) :
  (∀ key start,
    ((limiter.accepted key (limiter.run requestsPerMinute events).answers).filter
      (fun t => start ≤ t ∧ t < start + windowMs)).length ≤ requestsPerMinute ∧
    ((limiter.accepted key (limiter.run requestsPerMinute events).answers).filter
      (fun t => start < t ∧ t ≤ start + windowMs)).length ≤ requestsPerMinute) ∧
  (∀ before request now after, events = before ++ .request request now :: after →
    ((limiter.accepted (limiter.key request)
      (limiter.run requestsPerMinute before).answers).filter
        (fun t => now - windowMs < t ∧ t ≤ now)).length < requestsPerMinute →
    (limiter.handle requestsPerMinute (limiter.run requestsPerMinute before).windows
      request now).2 = none) ∧
  (∀ before request now between request' now' after refusal retry,
    events = before ++ .request request now :: (between ++ .request request' now' :: after) →
    limiter.key request' = limiter.key request →
    (∀ e ∈ between, limiter.Spares (limiter.key request) e) →
    (limiter.handle requestsPerMinute (limiter.run requestsPerMinute before).windows
      request now).2 = some refusal →
    refusal.retryAfter = some retry → now + retry * 1000 ≤ now' →
    (limiter.handle requestsPerMinute
      (limiter.run requestsPerMinute (before ++ .request request now :: between)).windows
      request' now').2 = none) ∧
  (limiter.run requestsPerMinute events).answers =
    (limiter.run requestsPerMinute (events.filter LimiterEvent.isRequest)).answers
  := by
  refine ⟨?_, ?_, ?_, limiter.answers_filter requestsPerMinute hordered⟩
  · intro key start
    constructor
    · apply limiter.length_window_le requestsPerMinute hordered key
      intro s t hs ht
      omega
    · apply limiter.length_window_le requestsPerMinute hordered key
      intro s t hs ht
      omega
  · rintro before request now after rfl hfew
    apply limiter.accepts_of_few requestsPerMinute hordered hfew
  · rintro before request now between request' now' after refusal retry rfl hkey hspares hrefused
      hretry hnow'
    apply limiter.accepts_after_retry requestsPerMinute hordered hkey hspares hrefused hretry hnow'

/-- Two requests of one address within half a second, the timer, and a third after a minute. -/
def sampleTraffic : List LimiterEvent :=
  [ .request { requestIP := some "1.2.3.4".toList } 0,
    .request { requestIP := some "1.2.3.4".toList } 500, .cleanUp 30000,
    .request { requestIP := some "1.2.3.4".toList } 60500 ]

/-- With a limit of 1 the second request is told to wait for 60 seconds, and the third is
accepted. -/
theorem rate_limiter_slides_sampleTraffic :
  ((ipRateLimitMiddleware none).handle 1
    ((ipRateLimitMiddleware none).run 1 (sampleTraffic.take 3)).windows
    { requestIP := some "1.2.3.4".toList } 60500).2 = none
  := by
  have hordered : sampleTraffic.Pairwise (fun e f => e.time ≤ f.time) := by decide
  apply (rate_limiter_slides (ipRateLimitMiddleware none) 1 hordered).2.2.1
    (sampleTraffic.take 1) { requestIP := some "1.2.3.4".toList } 500 [.cleanUp 30000]
    { requestIP := some "1.2.3.4".toList } 60500 []
    ⟨some 60, (ipRateLimitMiddleware none).headers, (ipRateLimitMiddleware none).body⟩ 60 rfl rfl
  · intro e he
    rw [List.mem_singleton.mp he]
    trivial
  · decide +kernel
  · rfl
  · decide

end AgentFs

import AgentFs.Live.PresenceTab
import AgentFs.Presence.StreamLaw

/-!
# The law of the presence of a tab

Whatever happens, a tab that has not stopped has one stream or one timeout that will open one, and
never both; it shows nothing of a stream that was lost, and nothing at all once it has stopped.
One request is in flight at most, and when nothing is left to send the server has the local state.
-/

namespace AgentFs

section

variable {State : Type}

/-! ### Throttle -/

inductive ThrottleAction where
  | request (ms : Nat)
  /-- The timeout is run, once it is due. -/
  | timeout
  | cancel
  deriving DecidableEq, Repr

/-- A request asks for at least `m`. -/
def ThrottleAction.AtLeast (m : Nat) : ThrottleAction → Prop
  | .request ms => m ≤ ms
  | .timeout => True
  | .cancel => True

instance (m : Nat) : (action : ThrottleAction) → Decidable (action.AtLeast m)
  | .request ms => inferInstanceAs (Decidable (m ≤ ms))
  | .timeout => .isTrue trivial
  | .cancel => .isTrue trivial

/-- A throttle with the times at which it sent, and the requests since. -/
structure ThrottleRun where
  throttle : Throttle
  sends : List Nat
  waiting : List (Nat × Nat)
  deriving DecidableEq, Repr

namespace ThrottleRun

def start : ThrottleRun :=
  ⟨.new, [], []⟩

def step (s : ThrottleRun) (now : Nat) : ThrottleAction → ThrottleRun
  | .request ms =>
      { s with throttle := s.throttle.request ms now, waiting := s.waiting ++ [(now, ms)] }
  | .timeout =>
      match s.throttle.due with
      | none => s
      | some due => if due ≤ now then ⟨s.throttle.fire now, s.sends ++ [now], []⟩ else s
  | .cancel => { s with throttle := s.throttle.cancel, waiting := [] }

def run (actions : List (Nat × ThrottleAction)) (s : ThrottleRun) : ThrottleRun :=
  actions.foldl (fun s action => s.step action.1 action.2) s

/-- The invariant, where no request asks for less than `m`. -/
structure Sound (m : Nat) (s : ThrottleRun) : Prop where
  lastSent : s.throttle.lastSent = s.sends.getLast?
  spaced : s.sends.Pairwise (fun time time' => time + m ≤ time')
  due : ∀ due ∈ s.throttle.due, ∀ sent ∈ s.throttle.lastSent, sent + m ≤ due
  waiting : ∀ request ∈ s.waiting, ∃ due, s.throttle.due = some due ∧
    due ≤ sendTime s.throttle.lastSent request.2 request.1

theorem request_due (t : Throttle) (ms now : Nat) :
  ∃ due, (t.request ms now).due = some due ∧ due ≤ sendTime t.lastSent ms now ∧
    (due = sendTime t.lastSent ms now ∨ t.due = some due) ∧ ∀ old ∈ t.due, due ≤ old
  := by
  unfold Throttle.request
  cases hdue : t.due with
  | none =>
      refine ⟨_, rfl, Nat.le_refl _, .inl rfl, ?_⟩
      rintro old ⟨⟩
  | some due =>
      dsimp only
      split
      case isTrue hle =>
        refine ⟨due, hdue, hle, .inr rfl, ?_⟩
        rintro old ⟨⟩
        exact Nat.le_refl _
      case isFalse hlt =>
        refine ⟨_, rfl, Nat.le_refl _, .inl rfl, ?_⟩
        rintro old ⟨⟩
        exact Nat.le_of_not_le hlt

theorem request_lastSent (t : Throttle) (ms now : Nat) :
  (t.request ms now).lastSent = t.lastSent
  := by
  unfold Throttle.request
  split
  · rfl
  · split
    · rfl
    · rfl

theorem Sound.step {m : Nat} {s : ThrottleRun} (h : s.Sound m) (now : Nat)
    {action : ThrottleAction} (hms : action.AtLeast m) :
  (s.step now action).Sound m
  := by
  cases action with
  | request ms =>
      obtain ⟨due, hdue, hle, hfrom, hold⟩ := request_due s.throttle ms now
      have hm : m ≤ ms := hms
      constructor
      · exact (request_lastSent _ _ _).trans h.lastSent
      · exact h.spaced
      · intro due' hdue' sent hsent
        rw [ThrottleRun.step, hdue, Option.mem_some_iff] at hdue'
        subst hdue'
        rw [ThrottleRun.step, request_lastSent] at hsent
        obtain heq | heq := hfrom
        · have hlast : s.throttle.lastSent = some sent := hsent
          rw [heq, hlast]
          have hmax := Nat.le_max_right now (sent + ms)
          exact Nat.le_trans (Nat.add_le_add_left hm sent) hmax
        · exact h.due due heq sent hsent
      · intro request hrequest
        refine ⟨due, hdue, ?_⟩
        rw [ThrottleRun.step, request_lastSent]
        obtain hrequest | hrequest := List.mem_append.mp hrequest
        · obtain ⟨old, hold', hle'⟩ := h.waiting request hrequest
          exact Nat.le_trans (hold old hold') hle'
        · rw [List.mem_singleton.mp hrequest]
          exact hle
  | timeout =>
      unfold ThrottleRun.step
      cases hdue : s.throttle.due with
      | none => exact h
      | some due =>
          dsimp only
          split
          case isFalse => exact h
          case isTrue hnow =>
            constructor
            · exact List.getLast?_concat.symm
            · rw [List.pairwise_append]
              refine ⟨h.spaced, List.pairwise_singleton _ _, ?_⟩
              rintro time htime time' htime'
              rw [List.mem_singleton.mp htime']
              -- The last send is the latest one, and the timeout was due after it.
              cases hlast : s.sends.getLast? with
              | none =>
                  rw [List.getLast?_eq_none_iff] at hlast
                  rw [hlast] at htime
                  cases htime
              | some sent =>
                  have hspace := h.due due hdue sent (h.lastSent.trans hlast)
                  obtain ⟨before, hbefore⟩ := List.getLast?_eq_some_iff.mp hlast
                  have hpairwise := h.spaced
                  rw [hbefore] at hpairwise htime
                  obtain htime | htime := List.mem_append.mp htime
                  · have hle := (List.pairwise_append.mp hpairwise).2.2 time htime sent
                      (List.mem_singleton_self sent)
                    omega
                  · rw [List.mem_singleton.mp htime]
                    omega
            · rintro due' ⟨⟩
            · rintro request ⟨⟩
  | cancel =>
      constructor
      · exact h.lastSent
      · exact h.spaced
      · rintro due ⟨⟩
      · rintro request ⟨⟩

/-- The sends of a throttle are as far apart as every request asks for, and a request that waits
is served at its deadline at the latest. -/
theorem throttle_law (m : Nat) (actions : List (Nat × ThrottleAction))
    (hms : ∀ action ∈ actions, action.2.AtLeast m) :
  ((start.run actions).sends.Pairwise (fun time time' => time + m ≤ time')) ∧
    ∀ request ∈ (start.run actions).waiting, ∃ due,
      (start.run actions).throttle.due = some due ∧
        due ≤ sendTime (start.run actions).sends.getLast? request.2 request.1
  := by
  suffices h : ∀ s : ThrottleRun, s.Sound m → (s.run actions).Sound m by
    have hstart : start.Sound m :=
      ⟨rfl, .nil, by rintro due ⟨⟩, by rintro request ⟨⟩⟩
    have hsound := h start hstart
    rw [← hsound.lastSent]
    exact ⟨hsound.spaced, hsound.waiting⟩
  induction actions with
  | nil => exact fun s hs => hs
  | cons action actions ih =>
      intro s hs
      apply ih (fun action' haction' => hms action' (List.mem_cons_of_mem action haction'))
      exact hs.step action.1 (hms action List.mem_cons_self)

/-- A change, and a pointer move that pulls the pending send forward. -/
theorem throttle_law_pointer :
  let s := start.run [(0, .request 300), (0, .timeout), (10, .request 300), (20, .request 100),
    (100, .timeout), (130, .timeout)]
  s.sends.Pairwise (fun time time' => time + 100 ≤ time') ∧
    ∀ request ∈ s.waiting, ∃ due, s.throttle.due = some due ∧
      due ≤ sendTime s.sends.getLast? request.2 request.1
  := throttle_law 100 _ (by decide)

end ThrottleRun

/-! ### Publisher -/

namespace PresencePublisher

/-- The last request is the only one that may be in flight, and has the state that was sent last. -/
structure PutsSound (p : PresencePublisher State) : Prop where
  one : ∀ (i : Nat) (put : PresencePut State), p.puts[i]? = some put →
    (put.answer = none ↔ p.inFlight = true ∧ i + 1 = p.puts.length)
  queued : p.queued.isSome = true → p.inFlight = true
  last : ∀ state, p.lastSent = some state →
    p.puts.getLast? = some ⟨state, if p.inFlight then none else some .ok⟩

/-- No send waits, so that the local state is the one that was sent last. -/
def Sent (p : PresencePublisher State) : Prop :=
  p.queued = none → ∀ state, p.lastSent = some state → state = p.localState

/-- With nothing left to send, the local state is the one that was sent last. -/
def Settled (stopped : Bool) (p : PresencePublisher State) : Prop :=
  stopped = false → p.throttle.due = none → p.dropped = false → p.Sent

variable {p : PresencePublisher State}

theorem throttle_send [DecidableEq State] (force : Bool) (p : PresencePublisher State) :
  (p.send force).throttle = p.throttle
  := by
  unfold send
  split
  · rfl
  · split
    · rfl
    · rfl

/-- A send waits only for a request in flight. -/
theorem PutsSound.queued_eq_none (h : p.PutsSound) (hflight : ¬ p.inFlight = true) :
  p.queued = none
  := by
  cases hqueued : p.queued with
  | none => rfl
  | some force => exact absurd (h.queued (by rw [hqueued]; rfl)) hflight

theorem PutsSound.send [DecidableEq State] (h : p.PutsSound) (force : Bool) :
  (p.send force).PutsSound ∧ (p.send force).Sent
  := by
  unfold PresencePublisher.send
  split
  case isTrue hflight =>
    refine ⟨⟨h.one, fun _ => hflight, h.last⟩, ?_⟩
    rintro ⟨⟩
  case isFalse hflight =>
    split
    case isTrue hsame =>
      refine ⟨⟨h.one, h.queued, h.last⟩, ?_⟩
      intro _ state hstate
      have hlast : p.lastSent = some state := hstate
      rw [hsame.2, Option.some_inj] at hlast
      exact hlast.symm
    case isFalse =>
      refine ⟨⟨?_, fun _ => rfl, ?_⟩, ?_⟩
      · intro i put hi
        rw [List.length_append, List.length_singleton]
        obtain hi | ⟨rfl, rfl⟩ := getElem?_concat_cases hi
        · have hlt := (List.getElem?_eq_some_iff.mp hi).1
          constructor
          · exact fun hnone => absurd ((h.one i put hi).mp hnone).1 hflight
          · rintro ⟨-, heq⟩
            omega
        · simp
      · rintro state ⟨⟩
        simp
      · rintro _ state ⟨⟩
        rfl

theorem PutsSound.settle (h : p.PutsSound) {i : Nat} {put : PresencePut State}
    (hi : p.puts[i]? = some put) (hopen : put.answer = none) (answer : PutAnswer) (now : Nat) :
  (settle answer now { p with puts := p.puts.set i { put with answer := some answer } }).PutsSound
  := by
  obtain ⟨hflight, hlength⟩ := (h.one i put hi).mp hopen
  obtain ⟨hlt, -⟩ := List.getElem?_eq_some_iff.mp hi
  have hanswered : ∀ (j : Nat) (put' : PresencePut State),
      (p.puts.set i { put with answer := some answer })[j]? = some put' → put'.answer ≠ none := by
    intro j put' hj hnone
    by_cases hij : i = j
    · subst hij
      rw [List.getElem?_set_self hlt] at hj
      cases hj
      cases hnone
    · rw [List.getElem?_set_ne hij] at hj
      have hlast := ((h.one j put' hj).mp hnone).2
      omega
  have hlast : ∀ state, p.lastSent = some state →
      (p.puts.set i { put with answer := some answer }).getLast? = some ⟨state, some answer⟩ := by
    intro state hstate
    have hget := h.last state hstate
    rw [hflight, if_pos rfl, List.getLast?_eq_getElem?, ← hlength, Nat.add_sub_cancel, hi,
      Option.some_inj] at hget
    rw [List.getLast?_eq_getElem?, List.length_set, ← hlength, Nat.add_sub_cancel,
      List.getElem?_set_self hlt, hget]
  unfold PresencePublisher.settle
  cases answer with
  | ok =>
      refine ⟨?_, ?_, ?_⟩
      · intro j put' hj
        exact ⟨fun hnone => absurd hnone (hanswered j put' hj), by rintro ⟨⟨⟩, -⟩⟩
      · rintro ⟨⟩
      · exact hlast
  | failed =>
      refine ⟨?_, ?_, ?_⟩
      · intro j put' hj
        exact ⟨fun hnone => absurd hnone (hanswered j put' hj), by rintro ⟨⟨⟩, -⟩⟩
      · rintro ⟨⟩
      · rintro state ⟨⟩
  | tooManyRequests =>
      refine ⟨?_, ?_, ?_⟩
      · intro j put' hj
        exact ⟨fun hnone => absurd hnone (hanswered j put' hj), by rintro ⟨⟨⟩, -⟩⟩
      · rintro ⟨⟩
      · rintro state ⟨⟩

/-- The invariant of the publisher. -/
structure Sound (stopped : Bool) (p : PresencePublisher State) : Prop where
  puts : p.PutsSound
  settled : p.Settled stopped
  halted : stopped = true → p.throttle.due = none

theorem Sound.send [DecidableEq State] {stopped : Bool} (h : p.Sound stopped) (force : Bool) :
  (p.send force).Sound stopped
  := by
  obtain ⟨hputs, hsent⟩ := h.puts.send force
  refine ⟨hputs, fun _ _ _ => hsent, ?_⟩
  rw [throttle_send]
  exact h.halted

theorem Sound.answered [DecidableEq State] {stopped : Bool} (h : p.Sound stopped) (i : Nat) (answer : PutAnswer)
    (now : Nat) :
  (p.answered stopped i answer now).Sound stopped
  := by
  unfold PresencePublisher.answered
  cases hi : p.puts[i]? with
  | none => exact h
  | some put =>
      dsimp only
      cases hopen : put.answer with
      | some _ => exact h
      | none =>
          have hputs := h.puts.settle hi hopen answer now
          have hfields : ∀ q : PresencePublisher State,
              (settle answer now q).throttle = q.throttle ∧
                (settle answer now q).dropped = q.dropped ∧
                (settle answer now q).localState = q.localState ∧
                ((settle answer now q).lastSent = q.lastSent ∨
                  (settle answer now q).lastSent = none) := by
            intro q
            cases answer with
            | ok => exact ⟨rfl, rfl, rfl, .inl rfl⟩
            | failed => exact ⟨rfl, rfl, rfl, .inr rfl⟩
            | tooManyRequests => exact ⟨rfl, rfl, rfl, .inr rfl⟩
          obtain ⟨hthrottle, hdropped, hlocal, hsent⟩ :=
            hfields { p with puts := p.puts.set i { put with answer := some answer } }
          simp only [Option.isSome_none, Bool.false_eq_true, if_false]
          generalize settle answer now _ = settled at *
          cases hqueued : p.queued with
          | none =>
              refine ⟨hputs, ?_, ?_⟩
              · intro hstopped hdue hdrop _ state hstate
                rw [hthrottle] at hdue
                rw [hdropped] at hdrop
                rw [hlocal]
                obtain hsame | hnone := hsent
                · exact h.settled hstopped hdue hdrop hqueued state (hsame ▸ hstate)
                · rw [hnone] at hstate
                  cases hstate
              · rw [hthrottle]
                exact h.halted
          | some force =>
              cases stopped with
              | true =>
                  simp only [if_true]
                  exact ⟨hputs, by rintro ⟨⟩, hthrottle ▸ h.halted⟩
              | false =>
                  simp only [Bool.false_eq_true, if_false]
                  obtain ⟨hputs', hsent'⟩ := hputs.send force
                  exact ⟨hputs', fun _ _ _ => hsent', by rintro ⟨⟩⟩

theorem Sound.changed {stopped : Bool} (h : p.Sound stopped) (pointer : Bool) (state : State)
    (now : Nat) :
  (p.changed stopped pointer state now).Sound stopped
  := by
  have hputs : ({ p with localState := state } : PresencePublisher State).PutsSound :=
    ⟨h.puts.one, h.puts.queued, h.puts.last⟩
  unfold PresencePublisher.changed
  cases stopped with
  | true =>
      simp only [if_true]
      exact ⟨hputs, by rintro ⟨⟩, h.halted⟩
  | false =>
      simp only [Bool.false_eq_true, if_false]
      split
      case isTrue => exact ⟨⟨hputs.one, hputs.queued, hputs.last⟩, by rintro - - ⟨⟩, by rintro ⟨⟩⟩
      case isFalse =>
        refine ⟨⟨hputs.one, hputs.queued, hputs.last⟩, ?_, by rintro ⟨⟩⟩
        intro _ hdue
        obtain ⟨due, hsome, -⟩ := ThrottleRun.request_due p.throttle (if pointer then 100 else 300) now
        rw [hsome] at hdue
        cases hdue

theorem Sound.throttleFires [DecidableEq State] {stopped : Bool} (h : p.Sound stopped) (now : Nat) :
  (p.throttleFires now).Sound stopped
  := by
  unfold PresencePublisher.throttleFires
  split
  case h_1 => exact h
  case h_2 due hdue =>
    split
    case isFalse => exact h
    case isTrue =>
      have hputs : ({ p with throttle := p.throttle.fire now } : PresencePublisher State).PutsSound :=
        ⟨h.puts.one, h.puts.queued, h.puts.last⟩
      obtain ⟨hputs', hsent⟩ := hputs.send false
      refine ⟨hputs', fun _ _ _ => hsent, ?_⟩
      rw [throttle_send]
      exact fun _ => rfl

theorem sound_start (localState : State) (now : Nat) :
  (start localState now).Sound false
  where
    puts := ⟨by rintro i put ⟨⟩, by rintro ⟨⟩, by rintro state ⟨⟩⟩
    settled := by rintro - ⟨⟩
    halted := by rintro ⟨⟩

end PresencePublisher

/-- What a tab publishes, whatever happened before. -/
structure PublisherLaw [DecidableEq State] (s : PresenceTab State) : Prop where
  /-- One request is in flight at most, the last one. -/
  one : ∀ (i : Nat) (put : PresencePut State), s.publisher.puts[i]? = some put →
    (put.answer = none ↔ s.publisher.inFlight = true ∧ i + 1 = s.publisher.puts.length)
  /-- When no send waits, the server has answered a request with the local state, unless the last
  request failed, the page was hidden, or a pointer move was dropped. -/
  published : s.stopped = false → s.publisher.throttle.due = none → s.publisher.inFlight = false →
    s.publisher.dropped = false → s.publisher.lastSent = none ∨
      s.publisher.puts.getLast? = some ⟨s.publisher.localState, some .ok⟩
  /-- A tab that has stopped sends nothing any more. -/
  halted : s.stopped = true → ∀ actions, (s.run actions).stopped = true ∧
    (s.run actions).publisher.puts.length = s.publisher.puts.length

namespace PresenceTab

variable [DecidableEq State]

theorem send_sound {s : PresenceTab State} (h : s.publisher.Sound s.stopped) (force : Bool) :
  (s.send force).publisher.Sound (s.send force).stopped
  := by
  unfold PresenceTab.send
  split
  · exact h
  · exact h.send force

theorem publisher_step {s : PresenceTab State} (h : s.publisher.Sound s.stopped) (now : Nat)
    (action : TabAction State) :
  (s.step now action).publisher.Sound (s.step now action).stopped
  := by
  cases action with
  | changed pointer state => exact h.changed pointer state now
  | throttleFires => exact h.throttleFires now
  | putAnswered i answer => exact h.answered i answer now
  | heartbeat => exact send_sound h true
  | pageHidden =>
      unfold step pageHidden
      dsimp only
      split
      · exact h
      · exact ⟨⟨h.puts.one, h.puts.queued, by rintro state ⟨⟩⟩, by rintro - - - - state ⟨⟩,
          h.halted⟩
  | pageShown => exact send_sound h true
  | opened id answer => exact h
  | frameRead id frame =>
      unfold step frameRead
      dsimp only
      split
      · split
        · exact h
        · cases frame with
          | ready driveId time =>
              apply send_sound (s := { s with connection := s.connection.onFrame s.userId _ })
              exact h
          | snapshot sessions => exact h
          | presence event => exact h
          | drive event => exact h
          | ping => exact h
      · exact h
  | streamEnded id => exact h
  | reconnectFires id => exact h
  | polled sessions => exact h
  | stop =>
      unfold step stop
      dsimp only
      split
      · exact h
      · exact ⟨⟨h.puts.one, h.puts.queued, h.puts.last⟩, by rintro ⟨⟩, fun _ => rfl⟩

theorem publisher_run {s : PresenceTab State} (h : s.publisher.Sound s.stopped)
    (actions : List (Nat × TabAction State)) :
  (s.run actions).publisher.Sound (s.run actions).stopped
  := by
  induction actions generalizing s with
  | nil => exact h
  | cons action actions ih => exact ih (publisher_step h action.1 action.2)

/-- A step of a tab that has stopped. -/
theorem step_halted {s : PresenceTab State} (h : s.publisher.Sound s.stopped)
    (hstopped : s.stopped = true) (now : Nat) (action : TabAction State) :
  (s.step now action).stopped = true ∧
    (s.step now action).publisher.puts.length = s.publisher.puts.length
  := by
  have hsend : ∀ force, s.send force = s := fun _ => if_pos hstopped
  cases action with
  | changed pointer state =>
      refine ⟨hstopped, ?_⟩
      simp [step, PresencePublisher.changed, hstopped]
  | throttleFires =>
      refine ⟨hstopped, ?_⟩
      simp [step, PresencePublisher.throttleFires, h.halted hstopped]
  | putAnswered i answer =>
      refine ⟨hstopped, ?_⟩
      unfold step PresencePublisher.answered
      dsimp only
      rw [hstopped]
      have hsettle : ∀ q : PresencePublisher State,
          (PresencePublisher.settle answer now q).puts = q.puts := by
        intro q
        cases answer with
        | ok => rfl
        | failed => rfl
        | tooManyRequests => rfl
      split
      · rfl
      · split
        · rfl
        · split
          · rw [hsettle, List.length_set]
          · rw [if_pos rfl, hsettle, List.length_set]
  | heartbeat =>
      rw [step, hsend]
      exact ⟨hstopped, rfl⟩
  | pageHidden =>
      rw [step, pageHidden, if_pos hstopped]
      exact ⟨hstopped, rfl⟩
  | pageShown =>
      rw [step, hsend]
      exact ⟨hstopped, rfl⟩
  | opened id answer => exact ⟨hstopped, rfl⟩
  | frameRead id frame =>
      unfold step frameRead
      dsimp only
      split
      · rw [if_pos hstopped]
        exact ⟨hstopped, rfl⟩
      · exact ⟨hstopped, rfl⟩
  | streamEnded id => exact ⟨hstopped, rfl⟩
  | reconnectFires id => exact ⟨hstopped, rfl⟩
  | polled sessions => exact ⟨hstopped, rfl⟩
  | stop =>
      rw [step, stop, if_pos hstopped]
      exact ⟨hstopped, rfl⟩

theorem run_halted {s : PresenceTab State} (h : s.publisher.Sound s.stopped)
    (hstopped : s.stopped = true) (actions : List (Nat × TabAction State)) :
  (s.run actions).stopped = true ∧
    (s.run actions).publisher.puts.length = s.publisher.puts.length
  := by
  induction actions generalizing s with
  | nil => exact ⟨hstopped, rfl⟩
  | cons action actions ih =>
      obtain ⟨hstopped', hlength⟩ := step_halted h hstopped action.1 action.2
      obtain ⟨hstopped'', hlength'⟩ := ih (publisher_step h action.1 action.2) hstopped'
      exact ⟨hstopped'', hlength'.trans hlength⟩

end PresenceTab

end

end AgentFs

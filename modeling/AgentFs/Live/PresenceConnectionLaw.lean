import AgentFs.Live.PresenceTab

/-!
# The law of the connection of a tab

A tab that has not stopped has one run of `connect` or one timeout that starts the next, never both
and never neither, so that it has one event stream at most and always gets back to one.  It polls
exactly while it says so, and it shows nothing of a stream that was lost.
-/

namespace AgentFs

section

variable {State : Type}

namespace PresenceConnection

/-! ### The invariant -/

/-- One run of `connect`, or one timeout that starts it. -/
inductive Linked (c : PresenceConnection State) : Prop where
  | connecting (run : Connect) (hconnects : c.connects = [run]) (hstream : c.stream = some run.id)
      (hreconnects : c.reconnects = [])
  | waiting (timer : Reconnect) (hconnects : c.connects = []) (hstream : c.stream = none)
      (hreconnects : c.reconnects = [timer]) (htimer : c.reconnectTimer = some timer.id)

/-- How long the timeouts of `connect` take. -/
def Delayed (polling : Bool) (reconnects : List Reconnect) : Prop :=
  ∀ timer ∈ reconnects, (polling = true → timer.delay = 60000) ∧
    (polling = false → 1000 ≤ timer.delay ∧ timer.delay ≤ 30000)

/-- The interval of the poll is pending exactly while the tab polls. -/
structure Polled (polling : Bool) (polls : List Nat) (pollTimer : Option Nat)
    (mode : PresenceMode) : Prop where
  timer : ∀ id ∈ polls, pollTimer = some id
  length : polls.length = if polling then 1 else 0
  mode : mode = .poll ↔ polling = true

/-- The sessions are those of other users. -/
def Others (userId : Text) (sessions : List (PresenceSession State)) : Prop :=
  ∀ session ∈ sessions, session.userId ≠ userId

/-- The invariant of a tab that has not stopped. -/
structure Live (userId : Text) (c : PresenceConnection State) : Prop where
  linked : c.Linked
  polled : Polled c.polling c.polls c.pollTimer c.mode
  delayed : Delayed c.polling c.reconnects
  backoff : 1000 ≤ c.backoff ∧ c.backoff ≤ 30000
  others : Others userId c.sessions
  /-- Without a stream or a poll there is nothing to show. -/
  idle : c.connects = [] → c.polling = false → c.mode = .off ∧ c.sessions = []

/-- The invariant of a tab that has stopped. -/
structure Halted (c : PresenceConnection State) : Prop where
  connects : c.connects.length ≤ 1
  reconnects : c.reconnects = []
  polls : c.polls = []
  off : c.mode = .off ∧ c.sessions = []

variable {userId : Text} {c : PresenceConnection State}

/-! ### Runs of `connect` -/

theorem Linked.length (h : c.Linked) :
  c.connects.length + c.reconnects.length = 1
  := by
  cases h with
  | connecting run hconnects hstream hreconnects => simp [hconnects, hreconnects]
  | waiting timer hconnects hstream hreconnects htimer => simp [hconnects, hreconnects]

/-- A run that has not returned is the only one, and no timeout is pending. -/
theorem Linked.of_connect? (h : c.Linked) {id : Nat} {run : Connect}
    (hrun : c.connect? id = some run) :
  c.connects = [run] ∧ run.id = id ∧ c.stream = some id ∧ c.reconnects = []
  := by
  unfold connect? at hrun
  have hid := List.find?_some hrun
  rw [decide_eq_true_iff] at hid
  have hmem := List.mem_of_find?_eq_some hrun
  cases h with
  | connecting run' hconnects hstream hreconnects =>
      rw [hconnects] at hmem
      obtain rfl := List.mem_singleton.mp hmem
      exact ⟨hconnects, hid, hid ▸ hstream, hreconnects⟩
  | waiting timer hconnects hstream hreconnects htimer =>
      rw [hconnects] at hmem
      cases hmem

/-- The run returns. -/
theorem Linked.endConnect (h : c.Linked) {id : Nat} {run : Connect}
    (hrun : c.connect? id = some run) :
  (c.endConnect id).connects = [] ∧ (c.endConnect id).stream = none ∧
    (c.endConnect id).reconnects = []
  := by
  obtain ⟨hconnects, hid, hstream, hreconnects⟩ := h.of_connect? hrun
  unfold PresenceConnection.endConnect
  dsimp only
  rw [hconnects, hstream, if_pos rfl]
  refine ⟨?_, rfl, hreconnects⟩
  simp [hid]

/-- What the end of a stream leaves: a timeout. -/
theorem Live.lost (h : c.Live userId) {id : Nat} {run : Connect}
    (hrun : c.connect? id = some run) :
  (c.lost false id).Live userId
  := by
  obtain ⟨hconnects, hstream, hreconnects⟩ := h.linked.endConnect hrun
  unfold PresenceConnection.lost
  rw [if_neg Bool.false_ne_true]
  have hkept : (c.endConnect id).polling = c.polling ∧ (c.endConnect id).polls = c.polls ∧
      (c.endConnect id).pollTimer = c.pollTimer ∧ (c.endConnect id).mode = c.mode ∧
      (c.endConnect id).backoff = c.backoff ∧ (c.endConnect id).sessions = c.sessions :=
    ⟨rfl, rfl, rfl, rfl, rfl, rfl⟩
  generalize c.endConnect id = ended at *
  obtain ⟨hpolling, hpolls, hpollTimer, hmode, hbackoff, hsessions⟩ := hkept
  have htimer : ∀ delay, ended.reconnects ++ [(⟨ended.nextId, delay⟩ : Reconnect)] =
      [⟨ended.nextId, delay⟩] := by
    intro delay
    rw [hreconnects, List.nil_append]
  unfold retry
  split
  case isTrue hpolling' =>
    refine ⟨.waiting ⟨ended.nextId, 60000⟩ hconnects hstream (htimer _) rfl, ?_, ?_, ?_, ?_, ?_⟩
    · dsimp only [setReconnect]
      rw [hpolling, hpolls, hpollTimer, hmode]
      exact h.polled
    · intro timer htimer'
      dsimp only [setReconnect] at htimer' ⊢
      rw [htimer, List.mem_singleton] at htimer'
      rw [htimer', hpolling']
      exact ⟨fun _ => rfl, by rintro ⟨⟩⟩
    · dsimp only [setReconnect]
      rw [hbackoff]
      exact h.backoff
    · dsimp only [setReconnect]
      rw [hsessions]
      exact h.others
    · intro _ hnot
      dsimp only [setReconnect] at hnot
      rw [hpolling'] at hnot
      cases hnot
  case isFalse hpolling' =>
    have hoff : ended.polling = false := eq_false_of_ne_true hpolling'
    refine ⟨.waiting ⟨ended.nextId, ended.backoff⟩ hconnects hstream (htimer _) rfl, ?_, ?_, ?_, ?_,
      ?_⟩
    · dsimp only [setReconnect]
      have hpolled := h.polled
      rw [← hpolling, ← hpolls, ← hpollTimer, hoff] at hpolled
      rw [hoff]
      exact ⟨hpolled.timer, hpolled.length, by rintro ⟨⟩, by rintro ⟨⟩⟩
    · intro timer htimer'
      dsimp only [setReconnect] at htimer' ⊢
      rw [htimer, List.mem_singleton] at htimer'
      rw [htimer', hoff, hbackoff]
      exact ⟨by rintro ⟨⟩, fun _ => h.backoff⟩
    · have hbounds := h.backoff
      dsimp only [setReconnect]
      rw [hbackoff]
      omega
    · rintro session ⟨⟩
    · exact fun _ _ => ⟨rfl, rfl⟩

/-- A tab over the limit of streams polls, and will try again. -/
theorem Live.tooMany (h : c.Live userId) {id : Nat} {run : Connect}
    (hrun : c.connect? id = some run) :
  (c.startPolling.endConnect id).Live userId
  := by
  obtain ⟨hconnects, hid, hstream, hreconnects⟩ := h.linked.of_connect? hrun
  have hreturned : c.connects.filter (fun c => c.id ≠ id) = [] := by
    rw [hconnects]
    simp [hid]
  have htimer : ∀ nextId, c.reconnects ++ [(⟨nextId, 60000⟩ : Reconnect)] = [⟨nextId, 60000⟩] := by
    intro nextId
    rw [hreconnects, List.nil_append]
  unfold startPolling
  split
  case isTrue hpolling =>
    refine ⟨.waiting ⟨c.nextId, 60000⟩ hreturned (if_pos hstream) (htimer _) rfl, h.polled, ?_,
      h.backoff, h.others, ?_⟩
    · intro timer htimer'
      dsimp only [PresenceConnection.endConnect, setReconnect] at htimer' ⊢
      rw [htimer, List.mem_singleton] at htimer'
      rw [htimer', hpolling]
      exact ⟨fun _ => rfl, by rintro ⟨⟩⟩
    · intro _ hnot
      dsimp only [PresenceConnection.endConnect, setReconnect] at hnot
      rw [hpolling] at hnot
      cases hnot
  case isFalse hpolling =>
    have hnone : c.polls = [] := by
      have hlength := h.polled.length
      rw [if_neg hpolling] at hlength
      exact List.eq_nil_of_length_eq_zero hlength
    refine ⟨.waiting ⟨c.nextId + 1, 60000⟩ hreturned (if_pos hstream) (htimer _) rfl, ?_, ?_,
      h.backoff, h.others, ?_⟩
    · constructor
      · intro id' hid'
        dsimp only [PresenceConnection.endConnect, setReconnect] at hid' ⊢
        rw [hnone, List.nil_append, List.mem_singleton] at hid'
        rw [hid']
      · dsimp only [PresenceConnection.endConnect, setReconnect]
        rw [hnone]
        rfl
      · exact ⟨fun _ => rfl, fun _ => rfl⟩
    · intro timer htimer'
      dsimp only [PresenceConnection.endConnect, setReconnect] at htimer' ⊢
      rw [htimer, List.mem_singleton] at htimer'
      rw [htimer']
      exact ⟨fun _ => rfl, by rintro ⟨⟩⟩
    · rintro _ ⟨⟩

theorem Live.opened (h : c.Live userId) (id : Nat) (answer : StreamOpened) :
  (c.opened false id answer).Live userId
  := by
  unfold PresenceConnection.opened
  split
  case h_1 _ hrun =>
    rw [if_neg Bool.false_ne_true]
    cases answer with
    | tooMany => exact h.tooMany hrun
    | failed => exact h.lost hrun
    | ok =>
        obtain ⟨hconnects, hid, hstream, hreconnects⟩ := h.linked.of_connect? hrun
        refine ⟨.connecting ⟨id, .reading⟩ ?_ hstream hreconnects, h.polled, h.delayed, h.backoff,
          h.others, ?_⟩
        · dsimp only at hid ⊢
          rw [hconnects]
          simp [hid]
        · intro hnone
          rw [List.map_eq_nil_iff, hconnects] at hnone
          cases hnone
  case h_2 => exact h

/-! ### Frames -/

theorem others_receive {sessions : List (PresenceSession State)} (h : Others userId sessions)
    (frame : StreamFrame State) :
  Others userId (receive userId sessions frame)
  := by
  have hfilter : ∀ p, Others userId (sessions.filter p) :=
    fun _ session hsession => h session (List.mem_of_mem_filter hsession)
  cases frame with
  | ready driveId time => exact h
  | snapshot snapshot =>
      intro session hsession
      exact of_decide_eq_true (List.mem_filter.mp hsession).2
  | presence event =>
      cases event with
      | updated driveId session time =>
          unfold receive
          dsimp only
          split
          case isTrue => exact h
          case isFalse hother =>
            intro session' hsession'
            obtain hsession' | hsession' := List.mem_append.mp hsession'
            · exact hfilter _ session' hsession'
            · rw [List.mem_singleton.mp hsession']
              exact hother
      | left driveId sessionId userId' time =>
          unfold receive
          dsimp only
          split
          · exact hfilter _
          · exact h
  | drive event => exact h
  | ping => exact h

theorem Live.onFrame (h : c.Live userId) (hconnected : c.connects ≠ [])
    (frame : StreamFrame State) :
  (c.onFrame userId frame).Live userId
  := by
  have hreconnects : c.reconnects = [] := by
    cases h.linked with
    | connecting run _ _ hreconnects => exact hreconnects
    | waiting timer hconnects => exact absurd hconnects hconnected
  have hreceive : ∀ frame, ({ c with sessions := receive userId c.sessions frame }).Live userId := by
    intro frame
    refine ⟨?_, h.polled, h.delayed, h.backoff, others_receive h.others frame, ?_⟩
    · cases h.linked with
      | connecting run hconnects hstream hnone => exact .connecting run hconnects hstream hnone
      | waiting timer hconnects => exact absurd hconnects hconnected
    · exact fun hnone => absurd hnone hconnected
  cases frame with
  | ready driveId time =>
      unfold PresenceConnection.onFrame stopPolling
      have hlinked : ∀ c' : PresenceConnection State, c'.connects = c.connects →
          c'.stream = c.stream → c'.reconnects = c.reconnects → c'.Linked := by
        intro c' hconnects' hstream' hreconnects'
        cases h.linked with
        | connecting run hconnects hstream hnone =>
            exact .connecting run (hconnects'.trans hconnects) (hstream'.trans hstream)
              (hreconnects'.trans hnone)
        | waiting timer hconnects => exact absurd hconnects hconnected
      dsimp only
      split
      case isTrue hpolling =>
        have hcleared : c.polls.filter (fun id => some id ≠ c.pollTimer) = [] := by
          rw [List.filter_eq_nil_iff]
          intro id hid
          rw [decide_eq_true_iff]
          exact fun hne => hne (h.polled.timer id hid).symm
        refine ⟨hlinked _ rfl rfl rfl, ⟨?_, ?_, ?_⟩, ?_, ?_, h.others, ?_⟩
        · intro id hid
          dsimp only at hid
          rw [hcleared] at hid
          cases hid
        · dsimp only
          rw [hcleared]
          rfl
        · constructor
          · rintro ⟨⟩
          · rintro ⟨⟩
        · intro timer htimer
          dsimp only at htimer
          rw [hreconnects] at htimer
          cases htimer
        · exact ⟨Nat.le_refl _, (by decide : 1000 ≤ 30000)⟩
        · exact fun hnone => absurd hnone hconnected
      case isFalse hpolling =>
        refine ⟨hlinked _ rfl rfl rfl, ⟨h.polled.timer, h.polled.length, ?_⟩, h.delayed, ?_,
          h.others, ?_⟩
        · constructor
          · rintro ⟨⟩
          · exact fun hpolls => absurd hpolls hpolling
        · exact ⟨Nat.le_refl _, (by decide : 1000 ≤ 30000)⟩
        · exact fun hnone => absurd hnone hconnected
  | snapshot snapshot => exact hreceive (.snapshot snapshot)
  | presence event => exact hreceive (.presence event)
  | drive event => exact hreceive (.drive event)
  | ping => exact hreceive .ping

/-! ### Timeouts -/

theorem Live.reconnectFires (h : c.Live userId) (id : Nat) :
  (c.reconnectFires id).Live userId
  := by
  unfold PresenceConnection.reconnectFires
  split
  case isFalse => exact h
  case isTrue hany =>
    obtain ⟨timer, hmem, hid⟩ := List.any_eq_true.mp hany
    rw [decide_eq_true_iff] at hid
    cases h.linked with
    | connecting run _ _ hreconnects =>
        rw [hreconnects] at hmem
        cases hmem
    | waiting timer' hconnects hstream hreconnects htimer =>
        rw [hreconnects] at hmem
        obtain rfl := List.mem_singleton.mp hmem
        have hfired : c.reconnects.filter (fun t => t.id ≠ id) = [] := by
          rw [hreconnects]
          simp [hid]
        refine ⟨.connecting ⟨c.nextId, .opening⟩ ?_ rfl hfired, h.polled, ?_, h.backoff, h.others, ?_⟩
        · dsimp only [connect]
          rw [hconnects, List.nil_append]
        · intro timer' htimer'
          dsimp only [connect] at htimer'
          rw [hfired] at htimer'
          cases htimer'
        · intro hnone
          dsimp only [connect] at hnone
          rw [hconnects] at hnone
          cases hnone

theorem Live.pollAnswered (h : c.Live userId) (sessions : List (PresenceSession State)) :
  (c.polled false userId sessions).Live userId
  := by
  unfold PresenceConnection.polled
  split
  case isFalse => exact h
  case isTrue hpolling =>
    refine ⟨?_, h.polled, h.delayed, h.backoff, ?_, ?_⟩
    · cases h.linked with
      | connecting run hconnects hstream hnone => exact .connecting run hconnects hstream hnone
      | waiting timer hconnects hstream hone htimer =>
          exact .waiting timer hconnects hstream hone htimer
    · intro session hsession
      exact of_decide_eq_true (List.mem_filter.mp hsession).2
    · intro _ hnot
      rw [show c.polling = false from hnot] at hpolling
      exact absurd hpolling.2 Bool.false_ne_true

theorem live_start :
  (start : PresenceConnection State).Live userId
  where
    linked := .connecting ⟨0, .opening⟩ rfl rfl rfl
    polled := ⟨by rintro id ⟨⟩, rfl, by constructor <;> rintro ⟨⟩⟩
    delayed := by rintro timer ⟨⟩
    backoff := ⟨Nat.le_refl _, (by decide : 1000 ≤ 30000)⟩
    others := by rintro session ⟨⟩
    idle := by rintro ⟨⟩

/-! ### The end -/

theorem Live.stop (h : c.Live userId) :
  c.stop.Halted
  := by
  have hlength := h.linked.length
  refine ⟨?_, ?_, ?_, rfl, rfl⟩
  · dsimp only [PresenceConnection.stop]
    omega
  · dsimp only [PresenceConnection.stop]
    rw [List.filter_eq_nil_iff]
    intro timer htimer
    rw [decide_eq_true_iff]
    cases h.linked with
    | connecting run _ _ hreconnects =>
        rw [hreconnects] at htimer
        cases htimer
    | waiting timer' _ _ hreconnects hset =>
        rw [hreconnects] at htimer
        rw [List.mem_singleton.mp htimer, hset]
        exact fun hne => hne rfl
  · dsimp only [PresenceConnection.stop]
    rw [List.filter_eq_nil_iff]
    intro id hid
    rw [decide_eq_true_iff]
    exact fun hne => hne (h.polled.timer id hid).symm

theorem Halted.endConnect (h : c.Halted) (id : Nat) :
  (c.endConnect id).Halted
  := ⟨Nat.le_trans (List.length_filter_le _ _) h.connects, h.reconnects, h.polls, h.off⟩

end PresenceConnection

open PresenceConnection

/-- What is connected in a tab, whatever happened before. -/
structure ConnectionLaw (s : PresenceTab State) : Prop where
  /-- One run of `connect` that has not returned, or one timeout that starts the next. -/
  linked : s.stopped = false →
    s.connection.connects.length + s.connection.reconnects.length = 1
  /-- The timeouts back off, up to thirty seconds, or take a minute while the tab polls. -/
  delayed : s.stopped = false → ∀ timer ∈ s.connection.reconnects,
    (s.connection.polling = true → timer.delay = 60000) ∧
      (s.connection.polling = false → 1000 ≤ timer.delay ∧ timer.delay ≤ 30000)
  /-- One interval of the poll exactly while the tab polls, which is what the mode says. -/
  polled : s.stopped = false →
    s.connection.polls.length = (if s.connection.polling then 1 else 0) ∧
      (s.connection.mode = .poll ↔ s.connection.polling = true)
  /-- Nothing is shown of a stream that was lost. -/
  idle : s.stopped = false → s.connection.connects = [] → s.connection.polling = false →
    s.connection.mode = .off ∧ s.connection.sessions = []
  /-- No session of the user of the tab is shown. -/
  others : ∀ session ∈ s.connection.sessions, session.userId ≠ s.userId
  /-- A tab that has stopped shows nothing, and no timeout or interval is left. -/
  halted : s.stopped = true → s.connection.reconnects = [] ∧ s.connection.polls = [] ∧
    s.connection.mode = .off ∧ s.connection.sessions = []

namespace PresenceTab

/-- The invariant. -/
def Connected (s : PresenceTab State) : Prop :=
  if s.stopped then s.connection.Halted else s.connection.Live s.userId

theorem Connected.live {s : PresenceTab State} (h : s.Connected) (hstopped : s.stopped = false) :
  s.connection.Live s.userId
  := by
  unfold Connected at h
  rwa [hstopped, if_neg Bool.false_ne_true] at h

theorem Connected.halted {s : PresenceTab State} (h : s.Connected) (hstopped : s.stopped = true) :
  s.connection.Halted
  := by
  unfold Connected at h
  rwa [if_pos hstopped] at h

variable [DecidableEq State] {s : PresenceTab State}

theorem Connected.send (h : s.Connected) (force : Bool) :
  (s.send force).Connected
  := by
  unfold PresenceTab.send
  split
  · exact h
  · exact h

theorem Connected.frameRead (h : s.Connected) (id : Nat) (frame : StreamFrame State) :
  (s.frameRead id frame).Connected
  := by
  unfold PresenceTab.frameRead
  split
  case h_2 => exact h
  case h_1 _ hrun =>
    split
    case isTrue => exact h
    case isFalse hstopped =>
      have hlive := h.live (eq_false_of_ne_true hstopped)
      have hconnected : s.connection.connects ≠ [] := by
        rw [(hlive.linked.of_connect? hrun).1]
        exact List.cons_ne_nil _ _
      have hread : ({ s with connection := s.connection.onFrame s.userId frame }).Connected := by
        unfold Connected
        rw [if_neg hstopped]
        exact hlive.onFrame hconnected frame
      cases frame with
      | ready driveId time => exact hread.send true
      | snapshot sessions => exact hread
      | presence event => exact hread
      | drive event => exact hread
      | ping => exact hread

theorem Connected.step (h : s.Connected) (now : Nat) (action : TabAction State) :
  (s.step now action).Connected
  := by
  have hconnection : ∀ c : PresenceConnection State,
      (s.stopped = true → c.Halted) → (s.stopped = false → c.Live s.userId) →
      ({ s with connection := c }).Connected := by
    intro c hhalted hlive
    unfold Connected
    dsimp only
    split
    case isTrue hstopped => exact hhalted hstopped
    case isFalse hstopped => exact hlive (eq_false_of_ne_true hstopped)
  have hlost : s.stopped = true → ∀ id, (s.connection.lost true id).Halted :=
    fun hstopped id => (h.halted hstopped).endConnect id
  cases action with
  | changed pointer state => exact h
  | throttleFires => exact h
  | putAnswered i answer => exact h
  | heartbeat => exact h.send true
  | pageHidden =>
      unfold PresenceTab.step pageHidden
      dsimp only
      split
      · exact h
      · exact h
  | pageShown => exact h.send true
  | opened id answer =>
      apply hconnection
      · intro hstopped
        rw [hstopped]
        unfold PresenceConnection.opened
        split
        · rw [if_pos rfl]
          exact hlost hstopped id
        · exact h.halted hstopped
      · intro hstopped
        rw [hstopped]
        exact (h.live hstopped).opened id answer
  | frameRead id frame => exact h.frameRead id frame
  | streamEnded id =>
      apply hconnection
      · intro hstopped
        rw [hstopped]
        unfold PresenceConnection.streamEnded
        split
        · exact hlost hstopped id
        · exact h.halted hstopped
      · intro hstopped
        rw [hstopped]
        unfold PresenceConnection.streamEnded
        split
        case h_1 run hrun => exact (h.live hstopped).lost hrun
        case h_2 => exact h.live hstopped
  | reconnectFires id =>
      apply hconnection
      · intro hstopped
        have hhalted := h.halted hstopped
        unfold PresenceConnection.reconnectFires
        rw [hhalted.reconnects, List.any_nil, if_neg Bool.false_ne_true]
        exact hhalted
      · exact fun hstopped => (h.live hstopped).reconnectFires id
  | polled sessions =>
      apply hconnection
      · intro hstopped
        unfold PresenceConnection.polled
        rw [hstopped, if_neg (by simp)]
        exact h.halted hstopped
      · intro hstopped
        rw [hstopped]
        exact (h.live hstopped).pollAnswered sessions
  | stop =>
      unfold PresenceTab.step PresenceTab.stop
      dsimp only
      split
      case isTrue => exact h
      case isFalse hstopped =>
        unfold Connected
        rw [if_pos rfl]
        exact (h.live (eq_false_of_ne_true hstopped)).stop

theorem Connected.run (h : s.Connected) (actions : List (Nat × TabAction State)) :
  (s.run actions).Connected
  := by
  induction actions generalizing s with
  | nil => exact h
  | cons action actions ih => exact ih (h.step action.1 action.2)

/-- The law of the connection holds after all actions. -/
theorem connection_law (userId : Text) (localState : State) (now : Nat)
    (actions : List (Nat × TabAction State)) :
  ConnectionLaw ((start userId localState now).run actions)
  := by
  have h := Connected.run (s := start userId localState now) live_start actions
  generalize (start userId localState now).run actions = s at h
  constructor
  · exact fun hstopped => (h.live hstopped).linked.length
  · exact fun hstopped => (h.live hstopped).delayed
  · exact fun hstopped => ⟨(h.live hstopped).polled.length, (h.live hstopped).polled.mode⟩
  · exact fun hstopped => (h.live hstopped).idle
  · cases hstopped : s.stopped with
    | true =>
        rw [(h.halted hstopped).off.2]
        rintro session ⟨⟩
    | false => exact (h.live hstopped).others
  · intro hstopped
    have hhalted := h.halted hstopped
    exact ⟨hhalted.reconnects, hhalted.polls, hhalted.off⟩

end PresenceTab

end

end AgentFs

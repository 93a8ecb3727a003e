import Mathlib.Algebra.Group.Nat.Defs
import AgentFs.Lib.OrderedMap

/-!
# The IPC client

`UnixIpcClient` of the file system helper (`ipc.rs`).  Any number of calls of `send_inner` run
concurrently, and every connection has a reader task.  A step runs one of them from one lock to
the next; which step runs, whether connecting and writing succeed and what a reader reads are
inputs.  Nothing awaits while it holds the lock of `pending`, so only that of `write_half` is
modelled.
-/

namespace AgentFs

/-- `Envelope<Response>`. -/
structure ResponseEnvelope (β : Type) where
  id : Nat
  body : β
  deriving DecidableEq, Repr

/-- What a reader gets from its socket: the length could not be read, or a length and the body,
`none` where it could not be read, and `some none` where it could not be decoded. -/
inductive Incoming (β : Type) where
  | closed
  | frame (len : Nat) (body : Option (Option (ResponseEnvelope β)))
  deriving DecidableEq, Repr

/-- The point that a reader task has reached. -/
inductive ReaderPhase where
  | reading
  /-- It is about to drop the writer, and `drains` whether it fails the waiters then. -/
  | failing (drains : Bool)
  /-- The writer is dropped, and the waiters are about to be failed. -/
  | draining
  | exited
  deriving DecidableEq, Repr

/-- The reader has not dropped the writer. -/
def ReaderPhase.Reads : ReaderPhase → Prop
  | .reading | .failing _ => True
  | _ => False

/-- The point that a call of `send_inner` has reached, with its id and its connection. -/
inductive CallPhase where
  /-- `ensure_connected` waits for the lock. -/
  | entering
  /-- `ensure_connected` holds the lock and connects. -/
  | connecting
  | connected (conn : Nat)
  | numbered (id conn : Nat)
  /-- The id is in `pending`. -/
  | inserted (id conn : Nat)
  | encoded (id conn : Nat)
  /-- The call holds the lock and writes. -/
  | writing (id conn : Nat)
  | waiting (id conn : Nat)
  | returned (id : Nat)
  | failed (id : Option Nat)
  deriving DecidableEq, Repr

namespace CallPhase

def id? : CallPhase → Option Nat
  | .entering | .connecting | .connected _ => none
  | .numbered id _ | .inserted id _ | .encoded id _ | .writing id _ | .waiting id _ => some id
  | .returned id => some id
  | .failed id => id

/-- The connection of a call that has not returned. -/
def conn? : CallPhase → Option Nat
  | .entering | .connecting | .returned _ | .failed _ => none
  | .connected conn | .numbered _ conn | .inserted _ conn | .encoded _ conn | .writing _ conn
  | .waiting _ conn => some conn

/-- The call has inserted its id and has not returned. -/
def Awaits : CallPhase → Prop
  | .inserted .. | .encoded .. | .writing .. | .waiting .. => True
  | _ => False

/-- The call has inserted its id. -/
def Inserted : CallPhase → Prop
  | .entering | .connecting | .connected _ | .numbered .. => False
  | _ => True

/-- The call holds the lock of `write_half`. -/
def HoldsWriter : CallPhase → Prop
  | .connecting | .writing .. => True
  | _ => False

instance (phase : CallPhase) : Decidable phase.HoldsWriter := by
  cases phase <;> unfold HoldsWriter <;> infer_instance

end CallPhase

/-- What the sender of a call was given: the body of an envelope, of which the id is kept here,
or the synthetic error. -/
inductive IpcReply (β : Type) where
  | response (env : ResponseEnvelope β)
  | disconnected
  deriving DecidableEq, Repr

structure IpcCall (β : Type) where
  phase : CallPhase
  reply : Option (IpcReply β)
  deriving DecidableEq, Repr

/-- `UnixIpcInner`, with the calls and the reader tasks.  `write_half` holds the number of a
connection, and `pending` the number of a call. -/
structure UnixIpcClient (β : Type) where
  writeHalf : Option Nat
  pending : OrderedMap Nat Nat
  nextId : Nat
  calls : List (IpcCall β)
  readers : List ReaderPhase
  deriving DecidableEq

namespace UnixIpcClient

variable {β : Type}

def new : UnixIpcClient β :=
  ⟨none, OrderedMap.empty, 1, [], []⟩

/-- No call holds the lock of `write_half`; a reader holds it only within a step. -/
def WriterFree (s : UnixIpcClient β) : Prop :=
  ∀ q ∈ s.calls, ¬ q.phase.HoldsWriter

instance (s : UnixIpcClient β) : Decidable s.WriterFree :=
  inferInstanceAs (Decidable (∀ q ∈ s.calls, _))

/-- Move a call to a point. -/
def reach (s : UnixIpcClient β) (r : Nat) (phase : CallPhase) : UnixIpcClient β :=
  { s with calls := s.calls.modify r (fun q => { q with phase := phase }) }

/-- Move a reader to a point. -/
def reachReader (s : UnixIpcClient β) (c : Nat) (phase : ReaderPhase) : UnixIpcClient β :=
  { s with readers := s.readers.set c phase }

def phase? (s : UnixIpcClient β) (r : Nat) : Option CallPhase :=
  (s.calls[r]?).map IpcCall.phase

/-! ### A call -/

/-- `send_inner` is called. -/
def call (s : UnixIpcClient β) : UnixIpcClient β :=
  { s with calls := s.calls ++ [⟨.entering, none⟩] }

/-- `ensure_connected` takes the lock. -/
def enter (s : UnixIpcClient β) (r : Nat) : Option (UnixIpcClient β) :=
  match s.phase? r with
  | some .entering =>
      if s.WriterFree then
        match s.writeHalf with
        | some conn => some (s.reach r (.connected conn))
        | none => some (s.reach r .connecting)
      else none
  | _ => none

/-- `UnixStream::connect` returns; the reader task of the connection is spawned. -/
def connect (s : UnixIpcClient β) (r : Nat) (ok : Bool) : Option (UnixIpcClient β) :=
  match s.phase? r with
  | some .connecting =>
      if ok then
        some { s.reach r (.connected s.readers.length) with
          writeHalf := some s.readers.length
          readers := s.readers ++ [.reading] }
      else some (s.reach r (.failed none))
  | _ => none

/-- `next_id.fetch_add`. -/
def number (s : UnixIpcClient β) (r : Nat) : Option (UnixIpcClient β) :=
  match s.phase? r with
  | some (.connected conn) =>
      some { s.reach r (.numbered s.nextId conn) with nextId := s.nextId + 1 }
  | _ => none

/-- `pending.lock().await.insert(id, tx)`. -/
def insert (s : UnixIpcClient β) (r : Nat) : Option (UnixIpcClient β) :=
  match s.phase? r with
  | some (.numbered id conn) =>
      some { s.reach r (.inserted id conn) with pending := s.pending.set id r }
  | _ => none

/-- The request is encoded, in `len` bytes; the length has to fit `u32`. -/
def encode (s : UnixIpcClient β) (r : Nat) (len : Option Nat) : Option (UnixIpcClient β) :=
  match s.phase? r with
  | some (.inserted id conn) =>
      match len with
      | some n =>
          if n < 2 ^ 32 then some (s.reach r (.encoded id conn))
          else some (s.reach r (.failed (some id)))
      | none => some (s.reach r (.failed (some id)))
  | _ => none

/-- `send_inner` takes the lock; without a writer it fails with "ipc writer not connected". -/
def lock (s : UnixIpcClient β) (r : Nat) : Option (UnixIpcClient β) :=
  match s.phase? r with
  | some (.encoded id _) =>
      if s.WriterFree then
        match s.writeHalf with
        | some conn => some (s.reach r (.writing id conn))
        | none => some (s.reach r (.failed (some id)))
      else none
  | _ => none

/-- The writes and the flush return, and the lock is released. -/
def write (s : UnixIpcClient β) (r : Nat) (ok : Bool) : Option (UnixIpcClient β) :=
  match s.phase? r with
  | some (.writing id conn) =>
      if ok then some (s.reach r (.waiting id conn)) else some (s.reach r (.failed (some id)))
  | _ => none

/-- `rx.await` returns. -/
def receive (s : UnixIpcClient β) (r : Nat) : Option (UnixIpcClient β) :=
  match s.calls[r]? with
  | some ⟨.waiting id _, some _⟩ => some (s.reach r (.returned id))
  | _ => none

/-! ### A reader -/

/-- `if let Some(tx) = map.remove(&env.id) { tx.send(env.body) }`. -/
def deliver (s : UnixIpcClient β) (env : ResponseEnvelope β) : UnixIpcClient β :=
  match s.pending.get env.id with
  | some r => { s with
      pending := s.pending.delete env.id
      calls := s.calls.modify r (fun q => { q with reply := some (.response env) }) }
  | none => s

/-- One pass of the loop of the reader task. -/
def read (s : UnixIpcClient β) (c : Nat) (incoming : Incoming β) : Option (UnixIpcClient β) :=
  match s.readers[c]? with
  | some .reading =>
      match incoming with
      | .closed => some (s.reachReader c (.failing true))
      | .frame len body =>
          if len = 0 ∨ len > 64 * 1024 * 1024 then some (s.reachReader c (.failing false))
          else
            match body with
            | none => some (s.reachReader c (.failing false))
            | some none => some s
            | some (some env) => some (s.deliver env)
  | _ => none

/-- `*write_half_slot.lock().await = None`. -/
def dropWriter (s : UnixIpcClient β) (c : Nat) : Option (UnixIpcClient β) :=
  match s.readers[c]? with
  | some (.failing drains) =>
      if s.WriterFree then
        some { s.reachReader c (if drains then .draining else .exited) with writeHalf := none }
      else none
  | _ => none

/-- A sender of the call is in `pending`. -/
def IsPending (s : UnixIpcClient β) (r : Nat) : Prop :=
  ∃ e ∈ s.pending.entries, e.2 = r

instance (s : UnixIpcClient β) (r : Nat) : Decidable (s.IsPending r) :=
  inferInstanceAs (Decidable (∃ e ∈ s.pending.entries, _))

/-- `for (_, tx) in map.drain()`, which fails the waiters of every connection. -/
def drain (s : UnixIpcClient β) (c : Nat) : Option (UnixIpcClient β) :=
  match s.readers[c]? with
  | some .draining => some { s.reachReader c .exited with
      pending := OrderedMap.empty
      calls := s.calls.mapIdx (fun r q =>
        if s.IsPending r then { q with reply := some .disconnected } else q) }
  | _ => none

/-! ### Runs -/

inductive Event (β : Type) where
  | call
  | enter (r : Nat)
  | connect (r : Nat) (ok : Bool)
  | number (r : Nat)
  | insert (r : Nat)
  | encode (r : Nat) (len : Option Nat)
  | lock (r : Nat)
  | write (r : Nat) (ok : Bool)
  | receive (r : Nat)
  | read (c : Nat) (incoming : Incoming β)
  | dropWriter (c : Nat)
  | drain (c : Nat)
  deriving DecidableEq, Repr

/-- A step; none where the call or the reader is at another point, or the lock is held. -/
def step (s : UnixIpcClient β) : Event β → Option (UnixIpcClient β)
  | .call => some s.call
  | .enter r => s.enter r
  | .connect r ok => s.connect r ok
  | .number r => s.number r
  | .insert r => s.insert r
  | .encode r len => s.encode r len
  | .lock r => s.lock r
  | .write r ok => s.write r ok
  | .receive r => s.receive r
  | .read c incoming => s.read c incoming
  | .dropWriter c => s.dropWriter c
  | .drain c => s.drain c

def run (s : UnixIpcClient β) : List (Event β) → Option (UnixIpcClient β)
  | [] => some s
  | e :: es => (s.step e).bind (fun s' => s'.run es)

/-! ### What a step does -/

/-- How a step moves a call and changes nothing else. -/
inductive Advances (s : UnixIpcClient β) (r : Nat) : Event β → CallPhase → CallPhase → Prop
  | join (conn : Nat) (h : s.writeHalf = some conn) :
      Advances s r (.enter r) .entering (.connected conn)
  | dial : Advances s r (.enter r) .entering .connecting
  | refused : Advances s r (.connect r false) .connecting (.failed none)
  | encode (id conn n : Nat) (h : n < 2 ^ 32) :
      Advances s r (.encode r (some n)) (.inserted id conn) (.encoded id conn)
  | lock (id conn conn' : Nat) (h : s.writeHalf = some conn') :
      Advances s r (.lock r) (.encoded id conn) (.writing id conn')
  | write (id conn : Nat) : Advances s r (.write r true) (.writing id conn) (.waiting id conn)

/-- How a step fails a call that has inserted its id. -/
inductive Fails (s : UnixIpcClient β) (r : Nat) : Event β → Nat → CallPhase → Prop
  | encode (id conn : Nat) (len : Option Nat) (h : ∀ n, len = some n → ¬ n < 2 ^ 32) :
      Fails s r (.encode r len) id (.inserted id conn)
  | lock (id conn : Nat) (h : s.writeHalf = none) : Fails s r (.lock r) id (.encoded id conn)
  | write (id conn : Nat) : Fails s r (.write r false) id (.writing id conn)

/-- What each step does. -/
inductive Steps (s : UnixIpcClient β) : Event β → UnixIpcClient β → Prop
  | call : Steps s .call s.call
  | advance (e : Event β) (r : Nat) (q : IpcCall β) (phase : CallPhase)
      (hq : s.calls[r]? = some q) (h : Advances s r e q.phase phase) :
      Steps s e (s.reach r phase)
  | fail (e : Event β) (r : Nat) (q : IpcCall β) (id : Nat)
      (hq : s.calls[r]? = some q) (h : Fails s r e id q.phase) :
      Steps s e (s.reach r (.failed (some id)))
  | connect (r : Nat) (q : IpcCall β) (hq : s.calls[r]? = some q) (h : q.phase = .connecting) :
      Steps s (.connect r true) { s.reach r (.connected s.readers.length) with
        writeHalf := some s.readers.length
        readers := s.readers ++ [.reading] }
  | number (r conn : Nat) (q : IpcCall β) (hq : s.calls[r]? = some q)
      (h : q.phase = .connected conn) :
      Steps s (.number r) { s.reach r (.numbered s.nextId conn) with nextId := s.nextId + 1 }
  | insert (r id conn : Nat) (q : IpcCall β) (hq : s.calls[r]? = some q)
      (h : q.phase = .numbered id conn) :
      Steps s (.insert r)
        { s.reach r (.inserted id conn) with pending := s.pending.set id r }
  | receive (r id conn : Nat) (reply : IpcReply β)
      (hq : s.calls[r]? = some ⟨.waiting id conn, some reply⟩) :
      Steps s (.receive r) (s.reach r (.returned id))
  | lost (c : Nat) (incoming : Incoming β) (drains : Bool) (hc : s.readers[c]? = some .reading) :
      Steps s (.read c incoming) (s.reachReader c (.failing drains))
  | skipped (c : Nat) (incoming : Incoming β) : Steps s (.read c incoming) s
  | deliver (c : Nat) (incoming : Incoming β) (env : ResponseEnvelope β) (r : Nat)
      (h : (env.id, r) ∈ s.pending.entries) :
      Steps s (.read c incoming) { s with
        pending := s.pending.delete env.id
        calls := s.calls.modify r (fun q => { q with reply := some (.response env) }) }
  | dropWriter (c : Nat) (drains : Bool) (hc : s.readers[c]? = some (.failing drains)) :
      Steps s (.dropWriter c)
        { s.reachReader c (if drains then .draining else .exited) with writeHalf := none }
  | drain (c : Nat) (hc : s.readers[c]? = some .draining) :
      Steps s (.drain c) { s.reachReader c .exited with
        pending := OrderedMap.empty
        calls := s.calls.mapIdx (fun r q =>
          if s.IsPending r then { q with reply := some .disconnected } else q) }

theorem phase?_eq_some {s : UnixIpcClient β} {r : Nat} {phase : CallPhase}
    (h : s.phase? r = some phase) :
  ∃ q, s.calls[r]? = some q ∧ q.phase = phase
  := Option.map_eq_some_iff.mp h

theorem read_steps {s s' : UnixIpcClient β} {c : Nat} {incoming : Incoming β}
    (h : s.read c incoming = some s') :
  Steps s (.read c incoming) s'
  := by
  unfold read at h
  split at h
  · rename_i hc
    cases incoming with
    | closed =>
        cases h
        apply Steps.lost _ _ _ hc
    | frame len body =>
        dsimp only at h
        split at h
        · cases h
          apply Steps.lost _ _ _ hc
        · rcases body with _ | _ | env
          · cases h
            apply Steps.lost _ _ _ hc
          · cases h
            apply Steps.skipped
          · cases h
            unfold deliver
            split
            · rename_i r hr
              apply Steps.deliver _ _ _ _ (OrderedMap.get_eq_some_iff.mp hr)
            · apply Steps.skipped
  · cases h

theorem step_steps {s s' : UnixIpcClient β} {e : Event β} (h : s.step e = some s') :
  Steps s e s'
  := by
  cases e with
  | call =>
      cases h
      apply Steps.call
  | enter r =>
      unfold step enter at h
      dsimp only at h
      split at h
      · rename_i hphase
        obtain ⟨q, hq, hphase⟩ := phase?_eq_some hphase
        split at h
        · split at h
          · rename_i conn hconn
            cases h
            exact .advance _ r q _ hq (hphase ▸ .join conn hconn)
          · cases h
            exact .advance _ r q _ hq (hphase ▸ .dial)
        · cases h
      · cases h
  | connect r ok =>
      unfold step connect at h
      dsimp only at h
      split at h
      · rename_i hphase
        obtain ⟨q, hq, hphase⟩ := phase?_eq_some hphase
        cases ok with
        | true =>
            cases h
            exact .connect r q hq hphase
        | false =>
            cases h
            exact .advance _ r q _ hq (hphase ▸ .refused)
      · cases h
  | number r =>
      unfold step number at h
      dsimp only at h
      split at h
      · rename_i conn hphase
        obtain ⟨q, hq, hphase⟩ := phase?_eq_some hphase
        cases h
        exact .number r conn q hq hphase
      · cases h
  | insert r =>
      unfold step insert at h
      dsimp only at h
      split at h
      · rename_i id conn hphase
        obtain ⟨q, hq, hphase⟩ := phase?_eq_some hphase
        cases h
        exact .insert r id conn q hq hphase
      · cases h
  | encode r len =>
      unfold step encode at h
      dsimp only at h
      split at h
      · rename_i id conn hphase
        obtain ⟨q, hq, hphase⟩ := phase?_eq_some hphase
        split at h
        · split at h
          · rename_i n hn
            cases h
            exact .advance _ r q _ hq (hphase ▸ .encode id conn n hn)
          · rename_i n hn
            cases h
            apply Steps.fail _ r q id hq
            rw [hphase]
            apply Fails.encode
            rintro _ ⟨⟩
            exact hn
        · cases h
          apply Steps.fail _ r q id hq
          rw [hphase]
          apply Fails.encode
          rintro _ ⟨⟩
      · cases h
  | lock r =>
      unfold step lock at h
      dsimp only at h
      split at h
      · rename_i id conn hphase
        obtain ⟨q, hq, hphase⟩ := phase?_eq_some hphase
        split at h
        · split at h
          · rename_i conn' hconn
            cases h
            exact .advance _ r q _ hq (hphase ▸ .lock id conn conn' hconn)
          · rename_i hnone
            cases h
            exact .fail _ r q id hq (hphase ▸ .lock id conn hnone)
        · cases h
      · cases h
  | write r ok =>
      unfold step write at h
      dsimp only at h
      split at h
      · rename_i id conn hphase
        obtain ⟨q, hq, hphase⟩ := phase?_eq_some hphase
        cases ok with
        | true =>
            cases h
            exact .advance _ r q _ hq (hphase ▸ .write id conn)
        | false =>
            cases h
            exact .fail _ r q id hq (hphase ▸ .write id conn)
      · cases h
  | receive r =>
      unfold step receive at h
      dsimp only at h
      split at h
      · rename_i id conn reply hq
        cases h
        exact .receive r id conn reply hq
      · cases h
  | read c incoming => exact read_steps h
  | dropWriter c =>
      unfold step dropWriter at h
      dsimp only at h
      split at h
      · rename_i drains hc
        split at h
        · cases h
          exact .dropWriter c drains hc
        · cases h
      · cases h
  | drain c =>
      unfold step drain at h
      dsimp only at h
      split at h
      · rename_i hc
        cases h
        exact .drain c hc
      · cases h

/-! ### What is pending -/

theorem getElem?_reach {s : UnixIpcClient β} {r i : Nat} {phase : CallPhase} {q : IpcCall β}
    (hq : s.calls[r]? = some q) :
  (s.reach r phase).calls[i]? = if i = r then some { q with phase := phase } else s.calls[i]?
  := by
  unfold reach
  dsimp only
  rw [List.getElem?_modify]
  by_cases hi : i = r
  · subst hi
    simp [hq]
  · cases s.calls[i]? with
    | none => simp [hi]
    | some q' => simp [hi, Ne.symm hi]

/-- What holds in every state, also after a defect: the writer is that of a connection whose
reader has not dropped it, an id is that of one call, what is pending has no reply yet, and a
call that waits for a reply is pending. -/
structure Sound (s : UnixIpcClient β) : Prop where
  writer : ∀ {c}, s.writeHalf = some c → ∃ reader, s.readers[c]? = some reader ∧ reader.Reads
  numbered : ∀ {r : Nat} {q : IpcCall β} {id}, s.calls[r]? = some q → q.phase.id? = some id → id < s.nextId
  unique : ∀ {r r' : Nat} {q q' : IpcCall β} {id}, s.calls[r]? = some q →
    s.calls[r']? = some q' → q.phase.id? = some id → q'.phase.id? = some id → r = r'
  pending : ∀ {id r : Nat}, (id, r) ∈ s.pending.entries →
    ∃ q, s.calls[r]? = some q ∧ q.phase.id? = some id ∧ q.reply = none ∧ q.phase.Inserted
  replies : ∀ {r : Nat} {q : IpcCall β} {env}, s.calls[r]? = some q → q.reply = some (.response env) →
    q.phase.id? = some env.id
  inserted : ∀ {r : Nat} {q : IpcCall β}, s.calls[r]? = some q → q.reply ≠ none → q.phase.Inserted
  awaits : ∀ {r : Nat} {q : IpcCall β}, s.calls[r]? = some q → q.phase.Awaits → q.reply = none → s.IsPending r

theorem sound_new :
  Sound (new : UnixIpcClient β)
  where
  writer h := by cases h
  numbered h := by cases h
  unique h := by cases h
  pending h := by cases h
  replies h := by cases h
  inserted h := by cases h
  awaits h := by cases h

/-- A step that moves one call, to a point with its id or with a fresh one, and may insert its
id. -/
theorem Sound.reach {s s' : UnixIpcClient β} (h : Sound s) {r : Nat} {q : IpcCall β}
    {phase : CallPhase} (hq : s.calls[r]? = some q)
    (hcalls : s'.calls = (s.reach r phase).calls)
    (hkeep : ∀ id, q.phase.id? = some id → phase.id? = some id)
    (hid : ∀ id, phase.id? = some id → q.phase.id? = some id ∨ s.nextId ≤ id ∧ id < s'.nextId)
    (hnext : s.nextId ≤ s'.nextId) (hinserted : q.phase.Inserted → phase.Inserted)
    (hpending : ∀ {id i}, (id, i) ∈ s'.pending.entries → (id, i) ∈ s.pending.entries ∨
      i = r ∧ phase.id? = some id ∧ q.reply = none ∧ phase.Inserted)
    (hothers : ∀ {i}, i ≠ r → s.IsPending i → s'.IsPending i)
    (hawaits : phase.Awaits → q.reply = none → s'.IsPending r)
    (hwriter : ∀ {c}, s'.writeHalf = some c →
      ∃ reader, s'.readers[c]? = some reader ∧ reader.Reads) :
  Sound s'
  := by
  have hget : ∀ {i q'}, s'.calls[i]? = some q' →
      (i = r ∧ q' = { q with phase := phase }) ∨ (i ≠ r ∧ s.calls[i]? = some q') := by
    intro i q' hi
    rw [hcalls, getElem?_reach hq] at hi
    by_cases hir : i = r
    · rw [if_pos hir, Option.some.injEq] at hi
      exact .inl ⟨hir, hi.symm⟩
    · rw [if_neg hir] at hi
      exact .inr ⟨hir, hi⟩
  have hfresh : ∀ {i q' id}, i ≠ r → s.calls[i]? = some q' → q'.phase.id? = some id →
      phase.id? ≠ some id := by
    intro i q' id hir hi hq' hphase
    rcases hid id hphase with hold | ⟨hle, -⟩
    · exact hir (h.unique hi hq hq' hold)
    · have hlt := h.numbered hi hq'
      omega
  refine ⟨hwriter, ?_, ?_, ?_, ?_, ?_, ?_⟩
  · intro i q' id hi hq'
    rcases hget hi with ⟨-, rfl⟩ | ⟨-, hi⟩
    · rcases hid id hq' with hold | ⟨-, hlt⟩
      · exact Nat.lt_of_lt_of_le (h.numbered hq hold) hnext
      · exact hlt
    · exact Nat.lt_of_lt_of_le (h.numbered hi hq') hnext
  · intro i i' q₁ q₂ id hi hi' hq₁ hq₂
    rcases hget hi with ⟨rfl, rfl⟩ | ⟨hir, hi⟩ <;> rcases hget hi' with ⟨rfl, rfl⟩ | ⟨hir', hi'⟩
    · rfl
    · exact absurd hq₁ (hfresh hir' hi' hq₂)
    · exact absurd hq₂ (hfresh hir hi hq₁)
    · exact h.unique hi hi' hq₁ hq₂
  · intro id i he
    rw [hcalls, getElem?_reach hq]
    rcases hpending he with he | ⟨rfl, hphase, hreply, hins⟩
    · obtain ⟨q', hi, hq', hreply, hins⟩ := h.pending he
      by_cases hir : i = r
      · subst hir
        rw [hq, Option.some.injEq] at hi
        subst hi
        rw [if_pos rfl]
        exact ⟨_, rfl, hkeep id hq', hreply, hinserted hins⟩
      · rw [if_neg hir]
        exact ⟨q', hi, hq', hreply, hins⟩
    · rw [if_pos rfl]
      exact ⟨_, rfl, hphase, hreply, hins⟩
  · intro i q' env hi hreply
    rcases hget hi with ⟨-, rfl⟩ | ⟨-, hi⟩
    · exact hkeep _ (h.replies hq hreply)
    · exact h.replies hi hreply
  · intro i q' hi hreply
    rcases hget hi with ⟨-, rfl⟩ | ⟨-, hi⟩
    · exact hinserted (h.inserted hq hreply)
    · exact h.inserted hi hreply
  · intro i q' hi hphase hreply
    rcases hget hi with ⟨rfl, rfl⟩ | ⟨hir, hi⟩
    · exact hawaits hphase hreply
    · exact hothers hir (h.awaits hi hphase hreply)

/-- A call that keeps its id moves on. -/
theorem Sound.reach_same {s : UnixIpcClient β} (h : Sound s) {r : Nat} {q : IpcCall β}
    {phase : CallPhase} (hq : s.calls[r]? = some q) (hid : phase.id? = q.phase.id?)
    (hinserted : q.phase.Inserted → phase.Inserted)
    (hawaits : phase.Awaits → q.phase.Awaits) :
  Sound (s.reach r phase)
  := by
  apply h.reach hq rfl
  · intro id hold
    rw [hid]
    exact hold
  · intro id hnew
    rw [hid] at hnew
    exact .inl hnew
  · apply Nat.le_refl
  · exact hinserted
  · exact .inl
  · exact fun _ hpend => hpend
  · exact fun hphase hreply => h.awaits hq (hawaits hphase) hreply
  · exact h.writer

/-- A step that takes senders out of `pending` and gives replies to their calls. -/
theorem Sound.settle {s s' : UnixIpcClient β} (h : Sound s) (hnext : s'.nextId = s.nextId)
    (hwriter : ∀ {c}, s'.writeHalf = some c →
      ∃ reader, s'.readers[c]? = some reader ∧ reader.Reads)
    (hpending : ∀ {e}, e ∈ s'.pending.entries → e ∈ s.pending.entries)
    (hcalls : ∀ i, (s'.calls[i]? = s.calls[i]? ∧ (s.IsPending i → s'.IsPending i)) ∨
      ¬ s'.IsPending i ∧ ∃ q reply id, s.calls[i]? = some q ∧ (id, i) ∈ s.pending.entries ∧
        s'.calls[i]? = some { q with reply := some reply } ∧
        ∀ env, reply = .response env → env.id = id) :
  Sound s'
  := by
  have hphase : ∀ {i : Nat} {q' : IpcCall β}, s'.calls[i]? = some q' →
      ∃ q, s.calls[i]? = some q ∧ q.phase = q'.phase := by
    intro i q' hi
    rcases hcalls i with ⟨hsame, -⟩ | ⟨-, q, reply, id, hq, -, hq', -⟩
    · exact ⟨q', hsame ▸ hi, rfl⟩
    · rw [hq', Option.some.injEq] at hi
      exact ⟨q, hq, hi ▸ rfl⟩
  refine ⟨hwriter, ?_, ?_, ?_, ?_, ?_, ?_⟩
  · intro i q' id hi hid
    obtain ⟨q, hq, hsame⟩ := hphase hi
    rw [hnext]
    exact h.numbered hq (hsame ▸ hid)
  · intro i i' q₁ q₂ id hi hi' hid hid'
    obtain ⟨q, hq, hsame⟩ := hphase hi
    obtain ⟨q', hq', hsame'⟩ := hphase hi'
    exact h.unique hq hq' (hsame ▸ hid) (hsame' ▸ hid')
  · intro id i he
    rcases hcalls i with ⟨hsame, -⟩ | ⟨hnot, -⟩
    · rw [hsame]
      exact h.pending (hpending he)
    · exact absurd ⟨_, he, rfl⟩ hnot
  · intro i q' env hi hreply
    rcases hcalls i with ⟨hsame, -⟩ | ⟨-, q, reply, id, hq, he, hq', hids⟩
    · exact h.replies (hsame ▸ hi) hreply
    · rw [hq', Option.some.injEq] at hi
      subst hi
      obtain ⟨q₁, hq₁, hid, -⟩ := h.pending he
      rw [hq, Option.some.injEq] at hq₁
      rw [hids env (Option.some.inj hreply), hq₁]
      exact hid
  · intro i q' hi hreply
    rcases hcalls i with ⟨hsame, -⟩ | ⟨-, q, reply, id, hq, he, hq', -⟩
    · exact h.inserted (hsame ▸ hi) hreply
    · rw [hq', Option.some.injEq] at hi
      subst hi
      obtain ⟨q₁, hq₁, -, -, hins⟩ := h.pending he
      rw [hq, Option.some.injEq] at hq₁
      rw [hq₁]
      exact hins
  · intro i q' hi hawaits hreply
    rcases hcalls i with ⟨hsame, hpend⟩ | ⟨-, q, reply, id, -, -, hq', -⟩
    · exact hpend (h.awaits (hsame ▸ hi) hawaits hreply)
    · rw [hq', Option.some.injEq] at hi
      subst hi
      cases hreply

theorem Sound.call {s : UnixIpcClient β} (h : Sound s) :
  Sound s.call
  := by
  have hget : ∀ {i : Nat} {q : IpcCall β}, s.call.calls[i]? = some q →
      s.calls[i]? = some q ∨ q = ⟨.entering, none⟩ := by
    intro i q hi
    unfold UnixIpcClient.call at hi
    dsimp only at hi
    rw [List.getElem?_append] at hi
    split at hi
    · exact .inl hi
    · rw [List.getElem?_singleton] at hi
      split at hi
      · exact .inr (Option.some.inj hi).symm
      · cases hi
  refine ⟨h.writer, ?_, ?_, ?_, ?_, ?_, ?_⟩
  · intro i q id hi hid
    rcases hget hi with hi | rfl
    · exact h.numbered hi hid
    · cases hid
  · intro i i' q q' id hi hi' hid hid'
    rcases hget hi with hi | rfl
    · rcases hget hi' with hi' | rfl
      · exact h.unique hi hi' hid hid'
      · cases hid'
    · cases hid
  · intro id i he
    obtain ⟨q, hq, hpend⟩ := h.pending he
    refine ⟨q, ?_, hpend⟩
    unfold UnixIpcClient.call
    dsimp only
    rw [List.getElem?_append_left (List.getElem?_eq_some_iff.mp hq).1]
    exact hq
  · intro i q env hi hreply
    rcases hget hi with hi | rfl
    · exact h.replies hi hreply
    · cases hreply
  · intro i q hi hreply
    rcases hget hi with hi | rfl
    · exact h.inserted hi hreply
    · exact absurd rfl hreply
  · intro i q hi hawaits hreply
    rcases hget hi with hi | rfl
    · exact h.awaits hi hawaits hreply
    · exact False.elim hawaits

/-- A reader removes the sender of an id and sends it a response. -/
theorem Sound.deliver {s : UnixIpcClient β} (h : Sound s) {env : ResponseEnvelope β} {r : Nat}
    (he : (env.id, r) ∈ s.pending.entries) :
  Sound { s with
    pending := s.pending.delete env.id
    calls := s.calls.modify r (fun q => { q with reply := some (.response env) }) }
  := by
  obtain ⟨q, hq, hid, -⟩ := h.pending he
  refine h.settle rfl h.writer ?_ ?_
  · intro e hmem
    exact (OrderedMap.mem_delete.mp hmem).1
  · intro i
    dsimp only
    rw [List.getElem?_modify]
    by_cases hir : i = r
    · subst hir
      right
      constructor
      · rintro ⟨⟨id', i⟩, hmem, rfl⟩
        rw [OrderedMap.mem_delete] at hmem
        obtain ⟨q', hq', hid', -⟩ := h.pending hmem.1
        rw [hq, Option.some.injEq] at hq'
        rw [← hq', hid, Option.some.injEq] at hid'
        exact hmem.2 hid'.symm
      · refine ⟨q, .response env, env.id, hq, he, ?_, ?_⟩
        · rw [hq]
          simp
        · rintro _ ⟨⟩
          rfl
    · left
      constructor
      · simp [Ne.symm hir]
      · rintro ⟨⟨id', i⟩, hmem, rfl⟩
        refine ⟨(id', i), OrderedMap.mem_delete.mpr ⟨hmem, ?_⟩, rfl⟩
        rintro rfl
        exact hir (OrderedMap.eq_of_mem hmem he)

/-- A reader fails every waiter. -/
theorem Sound.drain {s : UnixIpcClient β} (h : Sound s) {c : Nat}
    (hc : s.readers[c]? = some .draining) :
  Sound { s.reachReader c .exited with
    pending := OrderedMap.empty
    calls := s.calls.mapIdx (fun r q =>
      if s.IsPending r then { q with reply := some .disconnected } else q) }
  := by
  refine h.settle rfl ?_ ?_ ?_
  · intro c' hc'
    obtain ⟨reader, hreader, hreads⟩ := h.writer hc'
    refine ⟨reader, ?_, hreads⟩
    unfold reachReader
    dsimp only
    rw [List.getElem?_set_ne]
    · exact hreader
    · rintro rfl
      rw [hc, Option.some.injEq] at hreader
      rw [← hreader] at hreads
      exact hreads
  · rintro e ⟨⟩
  · intro i
    dsimp only
    rw [List.getElem?_mapIdx]
    by_cases hpend : s.IsPending i
    · right
      constructor
      · rintro ⟨e, ⟨⟩, -⟩
      · obtain ⟨⟨id, i⟩, hmem, rfl⟩ := id hpend
        obtain ⟨q, hq, -⟩ := h.pending hmem
        refine ⟨q, .disconnected, id, hq, hmem, ?_, ?_⟩
        · rw [hq, Option.map_some, if_pos hpend]
        · rintro _ ⟨⟩
    · left
      constructor
      · simp [hpend]
      · exact fun hpend' => absurd hpend' hpend

theorem Advances.id? {s : UnixIpcClient β} {r : Nat} {e : Event β} {phase phase' : CallPhase}
    (h : Advances s r e phase phase') :
  phase'.id? = phase.id?
  := by
  cases h <;> rfl

theorem Advances.inserted {s : UnixIpcClient β} {r : Nat} {e : Event β}
    {phase phase' : CallPhase} (h : Advances s r e phase phase') (hphase : phase.Inserted) :
  phase'.Inserted
  := by
  cases h with
  | join conn hconn => exact hphase
  | dial => exact hphase
  | refused => trivial
  | encode => trivial
  | lock => trivial
  | write => trivial

theorem Advances.awaits {s : UnixIpcClient β} {r : Nat} {e : Event β} {phase phase' : CallPhase}
    (h : Advances s r e phase phase') (hphase : phase'.Awaits) :
  phase.Awaits
  := by
  cases h with
  | join conn hconn => exact hphase
  | dial => exact hphase
  | refused => exact hphase
  | encode => trivial
  | lock => trivial
  | write => trivial

theorem Fails.id? {s : UnixIpcClient β} {r id : Nat} {e : Event β} {phase : CallPhase}
    (h : Fails s r e id phase) :
  phase.id? = some id
  := by
  cases h <;> rfl

theorem Sound.step {s s' : UnixIpcClient β} (h : Sound s) {e : Event β}
    (hstep : s.step e = some s') :
  Sound s'
  := by
  cases step_steps hstep with
  | call => exact h.call
  | advance _ r q phase hq hmove =>
      exact h.reach_same hq hmove.id? hmove.inserted hmove.awaits
  | fail _ r q id hq hfail =>
      exact h.reach_same hq hfail.id?.symm (fun _ => trivial) False.elim
  | connect r q hq hphase =>
      refine h.reach hq (rfl : _ = (s.reach r (.connected s.readers.length)).calls) ?_ ?_ ?_ ?_
        ?_ ?_ ?_ ?_
      · rw [hphase]
        rintro _ ⟨⟩
      · rintro _ ⟨⟩
      · apply Nat.le_refl
      · rw [hphase]
        exact False.elim
      · exact .inl
      · exact fun _ hpend => hpend
      · exact False.elim
      · intro c hc
        dsimp only at hc ⊢
        rw [Option.some.injEq] at hc
        subst hc
        rw [List.getElem?_concat_length]
        exact ⟨.reading, rfl, trivial⟩
  | number r conn q hq hphase =>
      refine h.reach hq (rfl : _ = (s.reach r (.numbered s.nextId conn)).calls) ?_ ?_ ?_ ?_
        ?_ ?_ ?_ h.writer
      · rw [hphase]
        rintro _ ⟨⟩
      · rintro _ ⟨⟩
        exact .inr ⟨Nat.le_refl _, Nat.lt_succ_self _⟩
      · apply Nat.le_succ
      · rw [hphase]
        exact False.elim
      · exact .inl
      · exact fun _ hpend => hpend
      · exact False.elim
  | insert r id conn q hq hphase =>
      have hreply : q.reply = none := by
        by_contra hsome
        have hinserted := h.inserted hq hsome
        rw [hphase] at hinserted
        exact hinserted
      refine h.reach hq (rfl : _ = (s.reach r (.inserted id conn)).calls) ?_ ?_ ?_ ?_ ?_ ?_ ?_
        h.writer
      · rw [hphase]
        exact fun _ hid => hid
      · rw [hphase]
        exact fun _ hid => .inl hid
      · apply Nat.le_refl
      · exact fun _ => trivial
      · intro id' i he
        dsimp only at he
        rw [OrderedMap.mem_set] at he
        rcases he with he | ⟨he, -⟩
        · cases he
          exact .inr ⟨rfl, rfl, hreply, trivial⟩
        · exact .inl he
      · rintro i hir ⟨⟨id', i⟩, he, rfl⟩
        refine ⟨(id', i), OrderedMap.mem_set.mpr (.inr ⟨he, ?_⟩), rfl⟩
        rintro rfl
        obtain ⟨q', hq', hid, -⟩ := h.pending he
        exact hir (h.unique hq' hq hid (by rw [hphase]; rfl))
      · exact fun _ _ => ⟨(id, r), OrderedMap.mem_set.mpr (.inl rfl), rfl⟩
  | receive r id conn reply hq =>
      exact h.reach_same hq rfl (fun _ => trivial) False.elim
  | lost c incoming drains hc =>
      refine ⟨?_, h.numbered, h.unique, h.pending, h.replies, h.inserted, h.awaits⟩
      intro c' hc'
      unfold reachReader
      dsimp only
      by_cases hsame : c = c'
      · subst hsame
        rw [List.getElem?_set_self (List.getElem?_eq_some_iff.mp hc).1]
        exact ⟨_, rfl, trivial⟩
      · rw [List.getElem?_set_ne hsame]
        exact h.writer hc'
  | skipped c incoming => exact h
  | deliver c incoming env r he => exact h.deliver he
  | dropWriter c drains hc =>
      refine ⟨?_, h.numbered, h.unique, h.pending, h.replies, h.inserted, h.awaits⟩
      rintro c' ⟨⟩
  | drain c hc => exact h.drain hc

theorem Sound.run {s s' : UnixIpcClient β} (h : Sound s) {es : List (Event β)}
    (hrun : s.run es = some s') :
  Sound s'
  := by
  induction es generalizing s with
  | nil =>
      cases hrun
      exact h
  | cons e es ih =>
      obtain ⟨t, hstep, hrun⟩ := Option.bind_eq_some_iff.mp hrun
      exact ih (h.step hstep) hrun

/-! ### Stranded requests -/

/-- The reader task of the connection has not exited. -/
def Runs (s : UnixIpcClient β) (c : Nat) : Prop :=
  ∃ reader, s.readers[c]? = some reader ∧ reader ≠ .exited

/-- No request is stranded. -/
structure NoneStranded (s : UnixIpcClient β) : Prop where
  /-- Every pending id is that of a call on a connection whose reader runs. -/
  served : ∀ {id r : Nat}, (id, r) ∈ s.pending.entries → ∃ q conn,
    s.calls[r]? = some q ∧ q.phase.id? = some id ∧ q.phase.conn? = some conn ∧ s.Runs conn
  /-- A waiter of a connection whose reader has exited has its reply. -/
  released : ∀ {r : Nat} {q : IpcCall β} {id conn}, s.calls[r]? = some q →
    q.phase = .waiting id conn → ¬ s.Runs conn → q.reply ≠ none
  /-- A call that has failed leaves no entry behind. -/
  failed : ∀ {r : Nat} {q : IpcCall β} {id}, s.calls[r]? = some q →
    q.phase = .failed (some id) → s.pending.get id = none
  /-- A response is delivered to the call with its id. -/
  replies : ∀ {r : Nat} {q : IpcCall β} {env}, s.calls[r]? = some q →
    q.reply = some (.response env) → q.phase.id? = some env.id

/-- Every pending sender is of a call on a connection whose reader runs. -/
def AllServed (s : UnixIpcClient β) : Prop :=
  ∀ r, s.IsPending r →
    ∃ q conn, s.calls[r]? = some q ∧ q.phase.conn? = some conn ∧ s.Runs conn

theorem Sound.noneStranded_iff {s : UnixIpcClient β} (h : Sound s) :
  s.NoneStranded ↔ s.AllServed
  := by
  constructor
  · rintro hnone r ⟨⟨id, r⟩, he, rfl⟩
    obtain ⟨q, conn, hq, -, hconn, hruns⟩ := hnone.served he
    exact ⟨q, conn, hq, hconn, hruns⟩
  · intro hall
    refine ⟨?_, ?_, ?_, h.replies⟩
    · intro id r he
      obtain ⟨q, conn, hq, hconn, hruns⟩ := hall r ⟨_, he, rfl⟩
      obtain ⟨q', hq', hid, -⟩ := h.pending he
      rw [hq, Option.some.injEq] at hq'
      exact ⟨q, conn, hq, hq' ▸ hid, hconn, hruns⟩
    · intro r q id conn hq hphase hexited hreply
      obtain ⟨q', conn', hq', hconn, hruns⟩ :=
        hall r (h.awaits hq (by rw [hphase]; trivial) hreply)
      rw [hq, Option.some.injEq] at hq'
      rw [← hq', hphase] at hconn
      cases hconn
      exact hexited hruns
    · intro r q id hq hphase
      rw [OrderedMap.get_eq_none_iff]
      intro i he
      obtain ⟨q', hq', hid, -⟩ := h.pending he
      obtain rfl := h.unique hq hq' (by rw [hphase]; rfl) hid
      obtain ⟨q', conn, hq', hconn, -⟩ := hall r ⟨_, he, rfl⟩
      rw [hq, Option.some.injEq] at hq'
      rw [← hq', hphase] at hconn
      cases hconn

/-- The step strands no request: an id is inserted only while the reader of the connection runs,
a call fails only when its id is no longer pending, and a reader exits without draining only when
no pending id is of its connection. -/
def Keeps (s : UnixIpcClient β) : Event β → Prop
  | .insert r => ∀ id conn, s.phase? r = some (.numbered id conn) → s.Runs conn
  | .encode r len => (∀ n, len = some n → ¬ n < 2 ^ 32) → ¬ s.IsPending r
  | .lock r => s.writeHalf = none → ¬ s.IsPending r
  | .write r ok => ok = false → ¬ s.IsPending r
  | .dropWriter c => s.readers[c]? = some (.failing false) →
      ∀ r q, s.IsPending r → s.calls[r]? = some q → q.phase.conn? ≠ some c
  | _ => True

theorem allServed_reach_iff {s s' : UnixIpcClient β} (hall : s.AllServed) {r : Nat}
    {q : IpcCall β} (phase : CallPhase) (hq : s.calls[r]? = some q)
    (hcalls : s'.calls = (s.reach r phase).calls)
    (hpending : ∀ i, i ≠ r → s'.IsPending i → s.IsPending i)
    (hruns : ∀ c, s.Runs c → s'.Runs c) :
  s'.AllServed ↔ (s'.IsPending r → ∃ conn, phase.conn? = some conn ∧ s'.Runs conn)
  := by
  unfold AllServed
  simp only [hcalls, getElem?_reach hq]
  constructor
  · intro hall' hpend
    obtain ⟨q', conn, hq', hconn, hrun⟩ := hall' r hpend
    rw [if_pos rfl, Option.some.injEq] at hq'
    subst hq'
    exact ⟨conn, hconn, hrun⟩
  · intro hr i hpend
    by_cases hir : i = r
    · subst hir
      obtain ⟨conn, hconn, hrun⟩ := hr hpend
      rw [if_pos rfl]
      exact ⟨_, conn, rfl, hconn, hrun⟩
    · obtain ⟨q', conn, hq', hconn, hrun⟩ := hall i (hpending i hir hpend)
      rw [if_neg hir]
      exact ⟨q', conn, hq', hconn, hruns conn hrun⟩

theorem Sound.not_isPending {s : UnixIpcClient β} (h : Sound s) {r : Nat} {q : IpcCall β}
    (hq : s.calls[r]? = some q) (hid : q.phase.id? = none ∨ q.reply ≠ none) :
  ¬ s.IsPending r
  := by
  rintro ⟨⟨id, r⟩, he, rfl⟩
  obtain ⟨q', hq', hid', hreply, -⟩ := h.pending he
  rw [hq, Option.some.injEq] at hq'
  subst hq'
  rcases hid with hid | hsome
  · rw [hid] at hid'
    cases hid'
  · exact hsome hreply

theorem runs_set {s : UnixIpcClient β} {c c' : Nat} {phase : ReaderPhase}
    (hphase : phase ≠ .exited) (h : s.Runs c') :
  (s.reachReader c phase).Runs c'
  := by
  obtain ⟨reader, hreader, hne⟩ := h
  unfold Runs reachReader
  dsimp only
  by_cases hsame : c = c'
  · subst hsame
    rw [List.getElem?_set_self (List.getElem?_eq_some_iff.mp hreader).1]
    exact ⟨_, rfl, hphase⟩
  · rw [List.getElem?_set_ne hsame]
    exact ⟨reader, hreader, hne⟩

/-- A step that moves no pending call. -/
theorem AllServed.of_phases {s s' : UnixIpcClient β} (hall : s.AllServed)
    (hpending : ∀ r, s'.IsPending r → s.IsPending r)
    (hcalls : ∀ (r : Nat) (q : IpcCall β), s.calls[r]? = some q →
      ∃ q', s'.calls[r]? = some q' ∧ q'.phase = q.phase)
    (hruns : ∀ c, s.Runs c → s'.Runs c) :
  s'.AllServed
  := by
  intro r hpend
  obtain ⟨q, conn, hq, hconn, hrun⟩ := hall r (hpending r hpend)
  obtain ⟨q', hq', hphase⟩ := hcalls r q hq
  exact ⟨q', conn, hq', hphase ▸ hconn, hruns conn hrun⟩

theorem Sound.advance_served {s : UnixIpcClient β} (h : Sound s) (hall : s.AllServed)
    {e : Event β} {r : Nat} {q : IpcCall β} {phase : CallPhase} (hq : s.calls[r]? = some q)
    (hmove : Advances s r e q.phase phase) :
  (s.reach r phase).AllServed ∧ s.Keeps e
  := by
  have hsame : phase.conn? = q.phase.conn? → (s.reach r phase).AllServed := by
    intro hconn
    rw [allServed_reach_iff hall _ hq rfl (fun _ _ hpend => hpend) (fun _ hruns => hruns), hconn]
    intro hpend
    obtain ⟨q', conn, hq', hconn', hruns⟩ := hall r hpend
    rw [hq, Option.some.injEq] at hq'
    exact ⟨conn, hq' ▸ hconn', hruns⟩
  have hunnumbered : q.phase.id? = none → (s.reach r phase).AllServed := by
    intro hid
    rw [allServed_reach_iff hall _ hq rfl (fun _ _ hpend => hpend) (fun _ hruns => hruns)]
    exact fun hpend => absurd hpend (h.not_isPending hq (.inl hid))
  rcases q with ⟨phase₀, reply⟩
  cases hmove with
  | join conn hconn => exact ⟨hunnumbered rfl, trivial⟩
  | dial => exact ⟨hunnumbered rfl, trivial⟩
  | refused => exact ⟨hunnumbered rfl, trivial⟩
  | encode id conn n hn => exact ⟨hsame rfl, fun hbad => absurd hn (hbad n rfl)⟩
  | lock id conn conn' hconn =>
      refine ⟨?_, fun hnone => ?_⟩
      · rw [allServed_reach_iff hall _ hq rfl (fun _ _ hpend => hpend) (fun _ hruns => hruns)]
        intro _
        obtain ⟨reader, hreader, hreads⟩ := h.writer hconn
        refine ⟨conn', rfl, reader, hreader, ?_⟩
        rintro rfl
        exact hreads
      · rw [hconn] at hnone
        cases hnone
  | write id conn => exact ⟨hsame rfl, nofun⟩

theorem Fails.served_iff {s : UnixIpcClient β} (hall : s.AllServed) {e : Event β} {r id : Nat}
    {q : IpcCall β} (hq : s.calls[r]? = some q) (hfail : Fails s r e id q.phase) :
  (s.reach r (.failed (some id))).AllServed ↔ s.Keeps e
  := by
  rw [allServed_reach_iff hall _ hq rfl (fun _ _ hpend => hpend) (fun _ hruns => hruns)]
  have hgone : (s.IsPending r → ∃ conn, (CallPhase.failed (some id)).conn? = some conn ∧
      (s.reach r (.failed (some id))).Runs conn) ↔ ¬ s.IsPending r := by
    constructor
    · intro hserved hpend
      obtain ⟨conn, hconn, -⟩ := hserved hpend
      cases hconn
    · exact fun hnot hpend => absurd hpend hnot
  refine hgone.trans ?_
  rcases q with ⟨phase, reply⟩
  cases hfail with
  | encode id conn len hbad => exact ⟨fun hnot _ => hnot, fun hkeeps => hkeeps hbad⟩
  | lock id conn hnone => exact ⟨fun hnot _ => hnot, fun hkeeps => hkeeps hnone⟩
  | write id conn => exact ⟨fun hnot _ => hnot, fun hkeeps => hkeeps rfl⟩

/-- A step from a state in which no request is stranded strands none exactly when it meets the
condition. -/
theorem Sound.allServed_step_iff {s s' : UnixIpcClient β} (h : Sound s) (hall : s.AllServed)
    {e : Event β} (hstep : s.step e = some s') :
  s'.AllServed ↔ s.Keeps e
  := by
  cases step_steps hstep with
  | call =>
      refine iff_of_true (hall.of_phases (fun _ hpend => hpend) ?_ (fun _ hruns => hruns)) trivial
      intro r q hq
      refine ⟨q, ?_, rfl⟩
      unfold UnixIpcClient.call
      dsimp only
      rw [List.getElem?_append_left (List.getElem?_eq_some_iff.mp hq).1]
      exact hq
  | advance _ r q phase hq hmove =>
      obtain ⟨hserved, hkeeps⟩ := h.advance_served hall hq hmove
      exact iff_of_true hserved hkeeps
  | fail _ r q id hq hfail => exact hfail.served_iff hall hq
  | connect r q hq hphase =>
      refine iff_of_true ?_ trivial
      refine (allServed_reach_iff hall (.connected s.readers.length) hq ?_ ?_ ?_).mpr ?_
      · rfl
      · exact fun _ _ hpend => hpend
      rotate_left
      · exact fun hpend => absurd hpend (h.not_isPending hq (.inl (by rw [hphase]; rfl)))
      · rintro c ⟨reader, hreader, hne⟩
        refine ⟨reader, ?_, hne⟩
        dsimp only
        rw [List.getElem?_append_left (List.getElem?_eq_some_iff.mp hreader).1]
        exact hreader
  | number r conn q hq hphase =>
      refine iff_of_true ?_ trivial
      refine (allServed_reach_iff hall (.numbered s.nextId conn) hq ?_ ?_ ?_).mpr ?_
      · rfl
      · exact fun _ _ hpend => hpend
      · exact fun _ hruns => hruns
      · exact fun hpend => absurd hpend (h.not_isPending hq (.inl (by rw [hphase]; rfl)))
  | insert r id conn q hq hphase =>
      refine (allServed_reach_iff hall (.inserted id conn) hq ?_ ?_ ?_).trans ?_
      · rfl
      rotate_left
      · exact fun _ hruns => hruns
      · constructor
        · intro hserved id' conn' hphase'
          obtain ⟨c, hc, hruns⟩ := hserved ⟨(id, r), OrderedMap.mem_set.mpr (.inl rfl), rfl⟩
          cases hc
          unfold phase? at hphase'
          rw [hq, Option.map_some, hphase, Option.some.injEq] at hphase'
          cases hphase'
          exact hruns
        · intro hkeeps _
          refine ⟨conn, rfl, hkeeps id conn ?_⟩
          unfold phase?
          rw [hq, Option.map_some, hphase]
      · rintro i hir ⟨⟨id', i⟩, he, rfl⟩
        dsimp only at he
        rw [OrderedMap.mem_set] at he
        rcases he with he | ⟨he, -⟩
        · cases he
          exact absurd rfl hir
        · exact ⟨(id', i), he, rfl⟩
  | receive r id conn reply hq =>
      refine iff_of_true ?_ trivial
      rw [allServed_reach_iff hall _ hq rfl (fun _ _ hpend => hpend) (fun _ hruns => hruns)]
      exact fun hpend => absurd hpend (h.not_isPending hq (.inr (Option.some_ne_none _)))
  | lost c incoming drains hc =>
      refine iff_of_true (hall.of_phases (fun _ hpend => hpend) (fun _ q hq => ⟨q, hq, rfl⟩) ?_)
        trivial
      exact fun c' hruns => runs_set (by rintro ⟨⟩) hruns
  | skipped c incoming => exact iff_of_true hall trivial
  | deliver c incoming env r he =>
      refine iff_of_true (hall.of_phases ?_ ?_ (fun _ hruns => hruns)) trivial
      · rintro i ⟨e, hmem, hei⟩
        exact ⟨e, (OrderedMap.mem_delete.mp hmem).1, hei⟩
      · intro i q hq
        dsimp only
        rw [List.getElem?_modify, hq]
        by_cases hri : r = i
        · exact ⟨{ q with reply := some (.response env) }, by simp [hri], rfl⟩
        · exact ⟨q, by simp [hri], rfl⟩
  | dropWriter c drains hc =>
      cases drains with
      | true =>
          refine iff_of_true (hall.of_phases (fun _ hpend => hpend)
            (fun _ q hq => ⟨q, hq, rfl⟩) ?_) ?_
          · exact fun c' hruns => runs_set (by rintro ⟨⟩) hruns
          · intro hexits
            rw [hc] at hexits
            cases hexits
      | false =>
          constructor
          · intro hall' _ r q hpend hq hconn
            obtain ⟨q', conn, hq', hconn', reader, hreader, hne⟩ := hall' r hpend
            obtain rfl := Option.some.inj (hq'.symm.trans hq)
            obtain rfl := Option.some.inj (hconn'.symm.trans hconn)
            unfold reachReader at hreader
            dsimp only at hreader
            rw [List.getElem?_set_self (List.getElem?_eq_some_iff.mp hc).1] at hreader
            cases hreader
            exact hne rfl
          · intro hkeeps r hpend
            obtain ⟨q, conn, hq, hconn, reader, hreader, hne⟩ := hall r hpend
            refine ⟨q, conn, hq, hconn, reader, ?_, hne⟩
            unfold reachReader
            dsimp only
            rw [List.getElem?_set_ne]
            · exact hreader
            · rintro rfl
              exact hkeeps hc r q hpend hq hconn
  | drain c hc =>
      refine iff_of_true ?_ trivial
      rintro r ⟨e, ⟨⟩, -⟩

theorem run_append {s : UnixIpcClient β} {es fs : List (Event β)} :
  s.run (es ++ fs) = (s.run es).bind (fun t => t.run fs)
  := by
  induction es generalizing s with
  | nil => rfl
  | cons e es ih =>
      change (s.step e).bind (fun t => t.run (es ++ fs)) =
        ((s.step e).bind (fun t => t.run es)).bind (fun t => t.run fs)
      rw [Option.bind_assoc]
      congr 1
      funext t
      exact ih

theorem allServed_run {s s' : UnixIpcClient β} (h : Sound s) (hall : s.AllServed)
    {es : List (Event β)} (hrun : s.run es = some s')
    (hkeeps : ∀ before e after t, es = before ++ e :: after → s.run before = some t → t.Keeps e) :
  s'.AllServed
  := by
  induction es generalizing s with
  | nil =>
      cases hrun
      exact hall
  | cons e es ih =>
      obtain ⟨t, hstep, hrun⟩ := Option.bind_eq_some_iff.mp hrun
      apply ih (h.step hstep)
        ((h.allServed_step_iff hall hstep).mpr (hkeeps [] e es s rfl rfl)) hrun
      intro before e' after u hsplit hbefore
      apply hkeeps (e :: before) e' after u (by rw [hsplit]; rfl)
      change (s.step e).bind _ = some u
      rw [hstep]
      exact hbefore

end UnixIpcClient

open UnixIpcClient

variable {β : Type}

/-- In a run of any calls, failures, disconnects, frames and reconnects, no request is stranded in
any state exactly when every step meets the condition. -/
theorem ipc_none_stranded_iff {es : List (Event β)} {s : UnixIpcClient β}
    (hrun : new.run es = some s) :
  (∀ before after t, es = before ++ after → new.run before = some t → t.NoneStranded) ↔
    ∀ before e after t, es = before ++ e :: after → new.run before = some t → t.Keeps e
  := by
  constructor
  · intro hnone before e after t hsplit hbefore
    have hsound := sound_new.run hbefore
    have hall := hsound.noneStranded_iff.mp (hnone before (e :: after) t hsplit hbefore)
    rw [hsplit, run_append, hbefore, Option.bind_some] at hrun
    obtain ⟨u, hstep, -⟩ := Option.bind_eq_some_iff.mp hrun
    apply (hsound.allServed_step_iff hall hstep).mp
    apply (hsound.step hstep).noneStranded_iff.mp
    apply hnone (before ++ [e]) after u (by rw [hsplit]; simp)
    rw [run_append, hbefore, Option.bind_some]
    change (t.step e).bind _ = some u
    rw [hstep]
    rfl
  · intro hkeeps before after t hsplit hbefore
    apply (sound_new.run hbefore).noneStranded_iff.mpr
    refine allServed_run sound_new ?_ hbefore ?_
    · rintro r ⟨e, ⟨⟩, -⟩
    · intro before' e after' u hsplit' hbefore'
      apply hkeeps before' e (after' ++ after) u _ hbefore'
      rw [hsplit, hsplit']
      simp

/-- Two calls share a connection, the second is answered first, and the other when the socket is
closed. -/
def sampleIpcRun : List (Event Nat) :=
  [.call, .call, .enter 0, .connect 0 true, .enter 1, .number 0, .number 1, .insert 1, .insert 0,
    .encode 0 (some 5), .encode 1 (some 6), .lock 1, .write 1 true, .lock 0, .write 0 true,
    .read 0 (.frame 9 (some none)), .read 0 (.frame 9 (some (some ⟨2, 70⟩))), .receive 1,
    .read 0 .closed, .dropWriter 0, .drain 0, .receive 0]

theorem ipc_none_stranded_iff_sampleIpcRun :
  ∃ s, new.run sampleIpcRun = some s ∧
    ((∀ before after t, sampleIpcRun = before ++ after → new.run before = some t →
        t.NoneStranded) ↔
      ∀ before e after t, sampleIpcRun = before ++ e :: after → new.run before = some t →
        t.Keeps e)
  := by
  have hrun : (new.run sampleIpcRun).isSome = true := by decide +kernel
  obtain ⟨s, hs⟩ := Option.isSome_iff_exists.mp hrun
  exact ⟨s, hs, ipc_none_stranded_iff hs⟩

/-- A call waits for its response, and the reader of its connection gets a length of zero. -/
def sampleStrandingRun : List (Event Nat) :=
  [.call, .enter 0, .connect 0 true, .number 0, .insert 0, .encode 0 (some 5), .lock 0,
    .write 0 true, .read 0 (.frame 0 none), .dropWriter 0]

/-- The reader has exited, and the call is pending without a reply. -/
theorem ipc_request_stranded :
  ∃ s, new.run sampleStrandingRun = some s ∧ s.readers[0]? = some .exited ∧
    s.calls[0]? = some ⟨.waiting 1 0, none⟩ ∧ s.pending.entries = [(1, 0)] ∧ ¬ s.NoneStranded
  := by
  have hrun : (new.run sampleStrandingRun).map (fun s => (s.readers, s.calls, s.pending.entries)) =
      some ([.exited], [⟨.waiting 1 0, none⟩], [(1, 0)]) := by
    decide +kernel
  obtain ⟨s, hs, hfields⟩ := Option.map_eq_some_iff.mp hrun
  simp only [Prod.mk.injEq] at hfields
  obtain ⟨hreaders, hcalls, hpending⟩ := hfields
  have hcall : s.calls[0]? = some ⟨.waiting 1 0, none⟩ := by rw [hcalls]; rfl
  refine ⟨s, hs, by rw [hreaders]; rfl, hcall, hpending, ?_⟩
  intro hnone
  apply hnone.released hcall rfl _ rfl
  rintro ⟨reader, hreader, hne⟩
  rw [hreaders] at hreader
  cases hreader
  exact hne rfl

end AgentFs

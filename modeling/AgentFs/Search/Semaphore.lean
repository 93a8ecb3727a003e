import Mathlib.Algebra.Order.Group.Int
import Mathlib.Data.List.Nodup

/-!
# Slots of embedding work

The semaphore of `search/pipeline.ts`.  `acquire` and `release` run without an await, so that a
run is a sequence of their calls; a caller is known by the number of its call of `acquire`.
-/

namespace AgentFs

/-- `permits` and `waiting`, the callbacks of the callers whose promises are not resolved yet. -/
structure Semaphore where
  permits : Int
  waiting : List Nat
  deriving DecidableEq, Repr

namespace Semaphore

/-- The constructor. -/
def new (permits : Nat) : Semaphore :=
  ⟨permits, []⟩

/-- A call of `acquire`, and whether its promise is resolved at once. -/
def acquire (caller : Nat) (s : Semaphore) : Semaphore × Bool :=
  if s.permits > 0 then ({ s with permits := s.permits - 1 }, true)
  else ({ s with waiting := s.waiting ++ [caller] }, false)

/-- The callback of a waiter takes a permit and resolves its promise. -/
def callback (s : Semaphore) : Semaphore :=
  { s with permits := s.permits - 1 }

/-- A call of `release`, and the waiter whose promise it resolves. -/
def release (s : Semaphore) : Semaphore × Option Nat :=
  let s := { s with permits := s.permits + 1 }
  match s.waiting with
  | [] => (s, none)
  | next :: waiting => (callback { s with waiting := waiting }, some next)

end Semaphore

/-! ### Runs -/

/-- A semaphore and its history: how many calls of `acquire` there were, the callers whose
promises were resolved, in this order, and those that have released their slots. -/
structure SlotRun where
  semaphore : Semaphore
  asked : Nat
  admitted : List Nat
  released : List Nat
  deriving DecidableEq, Repr

namespace SlotRun

def start (n : Nat) : SlotRun :=
  ⟨.new n, 0, [], []⟩

/-- The callers that hold a slot. -/
def held (r : SlotRun) : List Nat :=
  r.admitted.filter (· ∉ r.released)

def acquire (r : SlotRun) : SlotRun :=
  let (semaphore, resolved) := r.semaphore.acquire r.asked
  { r with
    semaphore := semaphore
    asked := r.asked + 1
    admitted := if resolved then r.admitted ++ [r.asked] else r.admitted }

def release (caller : Nat) (r : SlotRun) : SlotRun :=
  let (semaphore, resolved) := r.semaphore.release
  { r with
    semaphore := semaphore
    admitted := r.admitted ++ resolved.toList
    released := caller :: r.released }

/-- What happens next: anyone may ask, and a holder may release its slot. -/
inductive Step : SlotRun → SlotRun → Prop where
  | acquire (r : SlotRun) : Step r r.acquire
  | release {r : SlotRun} {caller : Nat} (h : caller ∈ r.held) : Step r (r.release caller)

/-- A run of a semaphore with `n` permits. -/
inductive Reachable (n : Nat) : SlotRun → Prop where
  | start : Reachable n (start n)
  | step {r r' : SlotRun} (h : Reachable n r) (hstep : Step r r') : Reachable n r'

/-- The law of a semaphore with `n` permits. -/
structure Law (n : Nat) (r : SlotRun) : Prop where
  /-- Slots are held or free. -/
  balance : (r.held.length : Int) + r.semaphore.permits = n
  permits : 0 ≤ r.semaphore.permits
  /-- Nobody waits while a permit is free. -/
  busy : r.semaphore.waiting ≠ [] → r.semaphore.permits = 0
  /-- Callers are admitted in the order in which they asked. -/
  order : r.admitted ++ r.semaphore.waiting = List.range r.asked
  /-- A slot is released once, by its holder. -/
  released : ∀ caller ∈ r.released, caller ∈ r.admitted

/-! ### Steps -/

theorem Law.nodup {n : Nat} {r : SlotRun} (h : r.Law n) :
  (r.admitted ++ r.semaphore.waiting).Nodup
  := by
  rw [h.order]
  exact List.nodup_range

theorem law_start (n : Nat) :
  (start n).Law n
  := by
  refine ⟨?_, Int.natCast_nonneg n, fun h => absurd rfl h, rfl, ?_⟩
  · exact Int.zero_add _
  · intro caller hcaller
    cases hcaller

theorem Law.not_released {n : Nat} {r : SlotRun} (h : r.Law n) {caller : Nat}
    (hcaller : caller ∉ r.admitted) :
  caller ∉ r.released
  := fun hreleased => hcaller (h.released caller hreleased)

/-- A caller that is admitted is one more holder. -/
theorem length_held_append (r : SlotRun) {caller : Nat} (hcaller : caller ∉ r.released)
    (semaphore : Semaphore) (asked : Nat) :
  (held ⟨semaphore, asked, r.admitted ++ [caller], r.released⟩).length = r.held.length + 1
  := by
  rw [held, List.filter_append, List.length_append, List.filter_singleton]
  simp [hcaller, held]

/-- A holder that releases its slot is one holder fewer. -/
theorem length_held_cons {r : SlotRun} (hnodup : r.admitted.Nodup) {caller : Nat}
    (hcaller : caller ∈ r.held) (semaphore : Semaphore) (asked : Nat) :
  (held ⟨semaphore, asked, r.admitted, caller :: r.released⟩).length + 1 = r.held.length
  := by
  have herase : held ⟨semaphore, asked, r.admitted, caller :: r.released⟩ =
      r.held.erase caller := by
    rw [held, held, (hnodup.filter _).erase_eq_filter, List.filter_filter]
    apply List.filter_congr
    intro other _
    by_cases heq : other = caller
    · simp [heq]
    · simp [heq]
  rw [herase, List.length_erase_of_mem hcaller]
  exact Nat.succ_pred_eq_of_pos (List.length_pos_of_mem hcaller)

theorem acquire_cases (r : SlotRun) :
  (0 < r.semaphore.permits ∧ r.acquire =
    ⟨⟨r.semaphore.permits - 1, r.semaphore.waiting⟩, r.asked + 1, r.admitted ++ [r.asked],
      r.released⟩) ∨
  (r.semaphore.permits ≤ 0 ∧ r.acquire =
    ⟨⟨r.semaphore.permits, r.semaphore.waiting ++ [r.asked]⟩, r.asked + 1, r.admitted,
      r.released⟩)
  := by
  unfold acquire Semaphore.acquire
  split
  · rename_i semaphore resolved heq
    split at heq
    · rename_i hpermits
      obtain ⟨rfl, rfl⟩ := Prod.mk.inj heq
      exact .inl ⟨hpermits, rfl⟩
    · rename_i hpermits
      obtain ⟨rfl, rfl⟩ := Prod.mk.inj heq
      exact .inr ⟨Int.not_lt.mp hpermits, rfl⟩

theorem release_cases (caller : Nat) (r : SlotRun) :
  (r.semaphore.waiting = [] ∧ r.release caller =
    ⟨⟨r.semaphore.permits + 1, []⟩, r.asked, r.admitted, caller :: r.released⟩) ∨
  (∃ next waiting, r.semaphore.waiting = next :: waiting ∧ r.release caller =
    ⟨⟨r.semaphore.permits, waiting⟩, r.asked, r.admitted ++ [next], caller :: r.released⟩)
  := by
  cases hwaiting : r.semaphore.waiting with
  | nil =>
      refine .inl ⟨rfl, ?_⟩
      simp [release, Semaphore.release, hwaiting]
  | cons next waiting =>
      refine .inr ⟨next, waiting, rfl, ?_⟩
      simp [release, Semaphore.release, Semaphore.callback, hwaiting]

theorem Law.acquire {n : Nat} {r : SlotRun} (h : r.Law n) :
  r.acquire.Law n
  := by
  have hfresh : r.asked ∉ r.admitted := by
    intro hmem
    have hrange := List.mem_append_left r.semaphore.waiting hmem
    rw [h.order, List.mem_range] at hrange
    exact Nat.lt_irrefl _ hrange
  obtain ⟨hpermits, heq⟩ | ⟨hpermits, heq⟩ := r.acquire_cases
  · -- with a permit left nobody waits
    have hwaiting : r.semaphore.waiting = [] := by
      by_contra hne
      rw [h.busy hne] at hpermits
      exact Int.lt_irrefl 0 hpermits
    have hbalance := h.balance
    have horder := h.order
    rw [hwaiting, List.append_nil] at horder
    rw [heq]
    refine ⟨?_, Int.sub_nonneg_of_le hpermits, fun hne => absurd hwaiting hne, ?_, ?_⟩
    · rw [length_held_append r (h.not_released hfresh)]
      dsimp only
      omega
    · rw [hwaiting, List.append_nil, horder, List.range_succ]
    · intro caller hcaller
      exact List.mem_append_left _ (h.released caller hcaller)
  · have hzero : r.semaphore.permits = 0 := Int.le_antisymm hpermits h.permits
    rw [heq]
    refine ⟨h.balance, h.permits, fun _ => hzero, ?_, h.released⟩
    rw [← List.append_assoc, h.order, List.range_succ]

theorem Law.release {n : Nat} {r : SlotRun} (h : r.Law n) {caller : Nat}
    (hcaller : caller ∈ r.held) :
  (r.release caller).Law n
  := by
  have hadmitted := (List.mem_filter.mp hcaller).1
  have hnodup := (List.nodup_append.mp h.nodup).1
  have hbalance := h.balance
  obtain ⟨hwaiting, heq⟩ | ⟨next, waiting, hwaiting, heq⟩ := r.release_cases caller
  · rw [heq]
    have hheld := length_held_cons hnodup hcaller ⟨r.semaphore.permits + 1, []⟩ r.asked
    refine ⟨?_, Int.add_nonneg h.permits Int.one_nonneg, fun hne => absurd rfl hne, ?_, ?_⟩
    · dsimp only
      omega
    · rw [← h.order, hwaiting]
    · intro other hother
      obtain rfl | hother := List.mem_cons.mp hother
      · exact hadmitted
      · exact h.released other hother
  · -- the permit goes to the waiter that asked first
    have hbusy := h.busy (by rw [hwaiting]; exact List.cons_ne_nil next waiting)
    have hnext : next ∉ r.admitted := by
      intro hmem
      have hdisjoint := (List.nodup_append.mp h.nodup).2.2 next hmem next
      rw [hwaiting] at hdisjoint
      exact hdisjoint List.mem_cons_self rfl
    have hheld := length_held_cons hnodup hcaller ⟨r.semaphore.permits, waiting⟩ r.asked
    have hfree : next ∉ caller :: r.released := by
      rintro (_ | ⟨_, hreleased⟩)
      · exact hnext hadmitted
      · exact h.not_released hnext hreleased
    have happend := length_held_append ⟨⟨r.semaphore.permits, waiting⟩, r.asked, r.admitted,
      caller :: r.released⟩ hfree ⟨r.semaphore.permits, waiting⟩ r.asked
    rw [heq]
    refine ⟨?_, h.permits, fun _ => hbusy, ?_, ?_⟩
    · dsimp only at happend ⊢
      omega
    · rw [← h.order, hwaiting, List.append_assoc]
      rfl
    · intro other hother
      apply List.mem_append_left
      obtain rfl | hother := List.mem_cons.mp hother
      · exact hadmitted
      · exact h.released other hother

theorem Law.step {n : Nat} {r r' : SlotRun} (h : r.Law n) (hstep : Step r r') :
  r'.Law n
  := by
  cases hstep with
  | acquire => exact h.acquire
  | release hcaller => exact h.release hcaller

/-- In every run of a semaphore with `n` permits the held slots and the permits make `n`, nobody
waits while a permit is free, and callers are admitted in the order in which they asked. -/
theorem semaphore_law {n : Nat} {r : SlotRun} (h : Reachable n r) :
  r.Law n ∧ r.held.length ≤ n
  := by
  have hlaw : r.Law n := by
    induction h with
    | start => exact law_start n
    | step _ hstep ih => exact ih.step hstep
  refine ⟨hlaw, ?_⟩
  have hbalance := hlaw.balance
  have hpermits := hlaw.permits
  omega

/-- Two callers of a semaphore with one permit; the second is admitted when the first releases. -/
theorem semaphore_law_handover :
  ((start 1).acquire.acquire.release 0).Law 1 ∧
    ((start 1).acquire.acquire.release 0).held.length ≤ 1
  := semaphore_law (((Reachable.start.step (.acquire _)).step (.acquire _)).step
      (.release (by decide)))

end SlotRun

end AgentFs

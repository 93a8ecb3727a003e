import Mathlib.Data.List.Basic

/-!
# Computations that may throw and that may not end

A computation over a state, that ends with a value or an error and leaves a state, or runs out
of fuel.  A triple says that it ends, and how: from every state with the precondition it ends in
a result and a state with the postcondition.
-/

/-- None means out of fuel. -/
def Fueled (σ ε α : Type) : Type :=
  σ → Option (Except ε α × σ)

namespace Fueled

variable {σ ε α β : Type}

instance : Monad (Fueled σ ε) where
  pure a := fun s => some (.ok a, s)
  bind x f := fun s =>
    match x s with
    | none => none
    | some (.error e, t) => some (.error e, t)
    | some (.ok a, t) => f a t

def throw (e : ε) : Fueled σ ε α :=
  fun s => some (.error e, s)

/-- The fuel has run out. -/
def exhausted : Fueled σ ε α :=
  fun _ => none

/-- Read the state. -/
def read (f : σ → α) : Fueled σ ε α :=
  fun s => some (.ok (f s), s)

/-- Change the state. -/
def change (f : σ → σ) : Fueled σ ε Unit :=
  fun s => some (.ok (), f s)

/-- Catch any error and go on with a value. -/
def orElse (x : Fueled σ ε α) (a : α) : Fueled σ ε α :=
  fun s =>
    match x s with
    | none => none
    | some (.error _, t) => some (.ok a, t)
    | some (.ok b, t) => some (.ok b, t)

def forEach (f : α → Fueled σ ε Unit) : List α → Fueled σ ε Unit
  | [] => pure ()
  | a :: rest => do
      f a
      forEach f rest

/-- The results of all elements, one after the other. -/
def collect (f : α → Fueled σ ε (List β)) : List α → Fueled σ ε (List β)
  | [] => pure []
  | a :: rest => do
      let found ← f a
      let others ← collect f rest
      pure (found ++ others)

/-- From every state with `P`, the computation ends as `Q` says. -/
def Triple (P : σ → Prop) (x : Fueled σ ε α) (Q : Except ε α → σ → Prop) : Prop :=
  ∀ s, P s → ∃ r t, x s = some (r, t) ∧ Q r t

variable {P P' : σ → Prop} {Q Q' : Except ε α → σ → Prop} {R : Except ε β → σ → Prop}

theorem Triple.weaken {x : Fueled σ ε α} (h : Triple P x Q) (hP : ∀ s, P' s → P s)
    (hQ : ∀ r s, Q r s → Q' r s) :
  Triple P' x Q'
  := by
  intro s hs
  obtain ⟨r, t, hrun, hr⟩ := h s (hP s hs)
  exact ⟨r, t, hrun, hQ r t hr⟩

/-- What a triple says of a result that is known. -/
theorem Triple.result {x : Fueled σ ε α} (h : Triple P x Q) {s t : σ} {r : Except ε α}
    (hs : P s) (hrun : x s = some (r, t)) :
  Q r t
  := by
  obtain ⟨r', t', hrun', hr⟩ := h s hs
  rw [hrun, Option.some.injEq, Prod.mk.injEq] at hrun'
  obtain ⟨rfl, rfl⟩ := hrun'
  exact hr

theorem Triple.pure {a : α} (h : ∀ s, P s → Q (.ok a) s) :
  Triple P (Pure.pure a : Fueled σ ε α) Q
  := fun s hs => ⟨.ok a, s, rfl, h s hs⟩

theorem Triple.throw {e : ε} (h : ∀ s, P s → Q (.error e) s) :
  Triple P (Fueled.throw e : Fueled σ ε α) Q
  := fun s hs => ⟨.error e, s, rfl, h s hs⟩

theorem Triple.read {f : σ → α} (h : ∀ s, P s → Q (.ok (f s)) s) :
  Triple P (Fueled.read f : Fueled σ ε α) Q
  := fun s hs => ⟨.ok (f s), s, rfl, h s hs⟩

theorem Triple.change {f : σ → σ} {Q : Except ε Unit → σ → Prop}
    (h : ∀ s, P s → Q (.ok ()) (f s)) :
  Triple P (Fueled.change f) Q
  := fun s hs => ⟨.ok (), f s, rfl, h s hs⟩

theorem Triple.bind {x : Fueled σ ε α} {f : α → Fueled σ ε β} (hx : Triple P x Q)
    (hok : ∀ a, Triple (Q (.ok a)) (f a) R) (herror : ∀ e s, Q (.error e) s → R (.error e) s) :
  Triple P (x >>= f) R
  := by
  intro s hs
  obtain ⟨r, t, hrun, hr⟩ := hx s hs
  change ∃ r' t', (match x s with
    | none => none
    | some (.error e, t) => some (.error e, t)
    | some (.ok a, t) => f a t) = some (r', t') ∧ R r' t'
  rw [hrun]
  cases r with
  | error e => exact ⟨.error e, t, rfl, herror e t hr⟩
  | ok a => exact hok a t hr

theorem Triple.orElse {x : Fueled σ ε α} {a : α} (hx : Triple P x Q)
    (hok : ∀ b s, Q (.ok b) s → Q' (.ok b) s) (herror : ∀ e s, Q (.error e) s → Q' (.ok a) s) :
  Triple P (x.orElse a) Q'
  := by
  intro s hs
  obtain ⟨r, t, hrun, hr⟩ := hx s hs
  unfold Fueled.orElse
  rw [hrun]
  cases r with
  | error e => exact ⟨.ok a, t, rfl, herror e t hr⟩
  | ok b => exact ⟨.ok b, t, rfl, hok b t hr⟩

/-- A loop keeps `I` of the elements that are done, `E` when it is left by an error. -/
theorem Triple.forEach {f : α → Fueled σ ε Unit} {xs : List α} {I : List α → σ → Prop}
    {E : ε → σ → Prop}
    (h : ∀ done a rest, xs = done ++ a :: rest → Triple (I done) (f a) (fun r s =>
      match r with
      | .ok _ => I (done ++ [a]) s
      | .error e => E e s)) :
  Triple (I []) (Fueled.forEach f xs) (fun r s =>
    match r with
    | .ok _ => I xs s
    | .error e => E e s)
  := by
  suffices hloop : ∀ done rest, xs = done ++ rest →
      Triple (I done) (Fueled.forEach f rest) (fun r s =>
        match r with
        | .ok _ => I xs s
        | .error e => E e s) from hloop [] xs rfl
  intro done rest hxs
  induction rest generalizing done with
  | nil =>
      rw [List.append_nil] at hxs
      subst hxs
      apply Triple.pure
      exact fun s hs => hs
  | cons a rest ih =>
      apply Triple.bind (h done a rest hxs)
      · intro u
        apply ih
        rw [hxs]
        simp
      · exact fun e s hs => hs

/-- A triple for every state with the precondition. -/
theorem Triple.of_forall {x : Fueled σ ε α} (h : ∀ s, P s → Triple (fun t => t = s) x Q) :
  Triple P x Q
  := fun s hs => h s hs s rfl

/-- The parts of a triple. -/
theorem Triple.and {x : Fueled σ ε α} (h : Triple P x Q) (h' : Triple P x Q') :
  Triple P x (fun r s => Q r s ∧ Q' r s)
  := by
  intro s hs
  obtain ⟨r, t, hrun, hr⟩ := h s hs
  exact ⟨r, t, hrun, hr, h'.result hs hrun⟩

end Fueled

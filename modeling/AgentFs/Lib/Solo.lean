import AgentFs.Lib.Async

/-!
# Programs that run alone

`Prog.solo` runs a program with nothing in between its segments, each of which takes the next
input, and returns the inputs that are left.  A sequence of programs runs alone by running one
after the other.
-/

namespace Async

variable {σ χ ε α β η : Type}

/-- The result of a program, the state it leaves and the inputs that are left; none while the
program waits for an input. -/
def Prog.solo : Prog σ χ ε α → σ → List χ → Option (α × σ × List χ)
  | .done a, s, cs => some (a, s, cs)
  | .act _ _, _, [] => none
  | .act f k, s, c :: cs => (k s c).solo (f s c).2 cs

/-- The result of a program whose segments meet the given states and inputs, whatever other
programs did in between; none while it waits for more. -/
def Prog.meeting : Prog σ χ ε α → List (σ × χ) → Option α
  | .done a, _ => some a
  | .act _ _, [] => none
  | .act _ k, m :: ms => (k m.1 m.2).meeting ms

theorem Prog.solo_bind (p : Prog σ χ ε α) (g : α → Prog σ χ ε β) (s : σ) (cs : List χ) :
  (p.bind g).solo s cs = (p.solo s cs).bind (fun r => (g r.1).solo r.2.1 r.2.2)
  := by
  induction p generalizing s cs with
  | done a => rfl
  | act f k ih =>
      cases cs with
      | nil => rfl
      | cons c cs => exact ih s c (f s c).2 cs

/-- What every segment leaves as it is, the program leaves as it is. -/
theorem Prog.Always.solo {v : σ → β} {p : Prog σ χ ε α}
    (hp : p.Always (fun s r => v r.2 = v s)) {s s' : σ} {cs cs' : List χ} {a : α}
    (h : p.solo s cs = some (a, s', cs')) :
  v s' = v s
  := by
  induction p generalizing s cs with
  | done b =>
      cases h
      rfl
  | act f k ih =>
      cases cs with
      | nil => cases h
      | cons c cs => exact (ih s c (hp.2 s c) h).trans (hp.1 s c)

/-- A program that runs alone on one input runs alone on copies of it. -/
theorem Prog.exists_solo (p : Prog σ χ ε α) (c : χ) (s : σ) :
  ∃ cs, p.solo s cs = some ((p.alone c s).1, (p.alone c s).2, [])
  := by
  induction p generalizing s with
  | done a =>
      use []
      rfl
  | act f k ih =>
      obtain ⟨cs, h⟩ := ih s c (f s c).2
      use c :: cs
      exact h

/-- A fallible program that starts with one segment, where this meets `m`. -/
theorem Fallible.meeting_atomic_bind (f : σ → χ → Except η α × ε × σ)
    (g : α → Fallible σ χ ε η β) (m : σ × χ) (ms : List (σ × χ)) :
  (Fallible.atomic f >>= g).run.meeting (m :: ms) =
    match (f m.1 m.2).1 with
    | .ok a => (g a).run.meeting ms
    | .error e => some (.error e)
  := by
  rw [run_bind]
  change (after g (f m.1 m.2).1).meeting ms = _
  cases (f m.1 m.2).1 with
  | ok a => rfl
  | error e => rfl

/-- A fallible program that ends in a value has run its first part to one. -/
theorem Fallible.solo_bind_ok {x : Fallible σ χ ε η α} {g : α → Fallible σ χ ε η β} {s t : σ}
    {cs ds : List χ} {b : β} (h : (x >>= g).run.solo s cs = some (.ok b, t, ds)) :
  ∃ a s' cs', x.run.solo s cs = some (.ok a, s', cs') ∧
    (g a).run.solo s' cs' = some (.ok b, t, ds)
  := by
  rw [run_bind, Prog.solo_bind] at h
  obtain ⟨⟨result, s', cs'⟩, hx, hg⟩ := Option.bind_eq_some_iff.mp h
  cases result with
  | error e => cases hg
  | ok a => exact ⟨a, s', cs', hx, hg⟩

theorem Fallible.solo_pure_ok {a b : α} {s t : σ} {cs ds : List χ}
    (h : (pure a : Fallible σ χ ε η α).run.solo s cs = some (.ok b, t, ds)) :
  b = a ∧ t = s
  := by
  cases h
  exact ⟨rfl, rfl⟩

/-- A program of one segment that ends in a value. -/
theorem Fallible.solo_atomic_ok {f : σ → χ → Except η α × ε × σ} {s t : σ} {cs ds : List χ} {a : α}
    (h : (Fallible.atomic f).run.solo s cs = some (.ok a, t, ds)) :
  ∃ c, (f s c).1 = .ok a ∧ (f s c).2.2 = t
  := by
  cases cs with
  | nil => cases h
  | cons c cs =>
      have hdone : some ((f s c).1, (f s c).2.2, cs) = some (.ok a, t, ds) := h
      cases hdone' : f s c with
      | mk result rest =>
          rw [hdone'] at hdone
          cases hdone
          exact ⟨c, by rw [hdone'], by rw [hdone']⟩

end Async

import AgentFs.Lib.Async

/-!
# Rely and guarantee

What a program does can depend on what it has read before, and between two of its segments
other programs run.  `Prog.Relies R G Q` is the judgement for such a program: as long as the
others only move the state along `R`, each of its segments satisfies the guarantee `G`, which
may refer to the events that the program has reported so far, and its result satisfies `Q`.
When the guarantees of all programs of a pool are within `R`, every step of every run
satisfies the guarantee of the program that takes it.
-/

namespace Async

variable {σ χ ε α β η : Type}

/-- What a segment guarantees: the events so far, the state before it, and the event and state
it leaves. -/
abbrev Guarantee (σ ε : Type) := List ε → σ → ε × σ → Prop

/-- From the history `h` and any state that the others make of `s`, the segments of the
program satisfy `G`, and the history, state and result it ends with satisfy `Q`. -/
def Prog.Relies (R : σ → σ → Prop) (G : Guarantee σ ε) (Q : List ε → σ → α → Prop) :
    Prog σ χ ε α → List ε → σ → Prop
  | .done a, h, s => Q h s a
  | .act f k, h, s => ∀ t, R s t → ∀ c,
      G h t (f t c) ∧ (k t c).Relies R G Q ((f t c).1 :: h) (f t c).2

section

variable {R : σ → σ → Prop} {G : Guarantee σ ε} {Q Q' : List ε → σ → α → Prop}

/-- The postcondition may be weakened. -/
theorem Prog.Relies.mono (hQ : ∀ h s a, Q h s a → Q' h s a) {p : Prog σ χ ε α} {h : List ε}
    {s : σ} (hp : p.Relies R G Q h s) :
  p.Relies R G Q' h s
  := by
  induction p generalizing h s with
  | done a => exact hQ h s a hp
  | act f k ih =>
      intro t ht c
      obtain ⟨hG, hrest⟩ := hp t ht c
      exact ⟨hG, ih t c hrest⟩

/-- The guarantee may be weakened. -/
theorem Prog.Relies.weaken {G' : Guarantee σ ε} (hG : ∀ h s r, G h s r → G' h s r)
    {p : Prog σ χ ε α} {h : List ε} {s : σ} (hp : p.Relies R G Q h s) :
  p.Relies R G' Q h s
  := by
  induction p generalizing h s with
  | done a => exact hp
  | act f k ih =>
      intro t ht c
      obtain ⟨hguarantee, hrest⟩ := hp t ht c
      exact ⟨hG _ _ _ hguarantee, ih t c hrest⟩

/-- Sequencing: a program, then the program its result picks. -/
theorem Prog.Relies.bind {Q : List ε → σ → β → Prop} {p : Prog σ χ ε α} {g : α → Prog σ χ ε β}
    {h : List ε} {s : σ} (hp : p.Relies R G (fun h' s' a => (g a).Relies R G Q h' s') h s) :
  (p.bind g).Relies R G Q h s
  := by
  induction p generalizing h s with
  | done a => exact hp
  | act f k ih =>
      intro t ht c
      obtain ⟨hG, hrest⟩ := hp t ht c
      exact ⟨hG, ih t c hrest⟩

end

/-- `R` describes how the state moves on, and the guarantees are within it. -/
structure Interference (R : σ → σ → Prop) (G : Nat → Guarantee σ ε) : Prop where
  refl : ∀ s t, R s t → R t t
  trans : ∀ s t u, R s t → R t u → R s u
  within : ∀ i h s t r, R s t → G i h t r → R t r.2

/-- Every program of the pool relies on `R` from some state that the others have moved on from. -/
def Pool.RelyOn (R : σ → σ → Prop) (G : Nat → Guarantee σ ε) (Q : Nat → List ε → σ → α → Prop)
    (P : Pool σ χ ε α) : Prop :=
  ∀ (i : Nat) (p : Prog σ χ ε α), P.procs[i]? = some p →
    ∃ s, R s P.conf.state ∧ p.Relies R (G i) (Q i) (P.conf.own i) s

section

variable {R : σ → σ → Prop} {G : Nat → Guarantee σ ε} {Q : Nat → List ε → σ → α → Prop}
  {P : Pool σ χ ε α}

/-- One step keeps what every program relies on. -/
theorem Pool.RelyOn.step (hR : Interference R G) (h : P.RelyOn R G Q) (t : Nat × χ) :
  (P.step t).RelyOn R G Q
  := by
  obtain hstep | ⟨f, k, hp, hstep⟩ := P.step_cases t
  · rw [hstep]
    exact h
  · rw [hstep]
    obtain ⟨s, hs, hrelies⟩ := h _ _ hp
    obtain ⟨hguarantee, hrest⟩ := hrelies _ hs t.2
    have hmove : R P.conf.state (f P.conf.state t.2).2 := hR.within _ _ _ _ _ hs hguarantee
    intro i p hi
    by_cases hit : t.1 = i
    · subst hit
      rw [List.getElem?_set_self (List.getElem?_eq_some_iff.mp hp).1] at hi
      cases hi
      refine ⟨_, hR.refl _ _ hmove, ?_⟩
      rw [Conf.own_push_self]
      exact hrest
    · rw [List.getElem?_set_ne hit] at hi
      obtain ⟨s', hs', hrelies'⟩ := h i p hi
      refine ⟨s', hR.trans _ _ _ hs' hmove, ?_⟩
      rw [Conf.own_push_of_ne hit]
      exact hrelies'

/-- Every step of every run satisfies the guarantee of the program that takes it, and the run
keeps what the programs rely on. -/
theorem Pool.run_relies (hR : Interference R G) (h : P.RelyOn R G Q) (ts : List (Nat × χ)) :
  P.Admits (fun cf i r => (∃ s, R s cf.state) ∧ G i (cf.own i) cf.state r) ts ∧
    (P.run ts).RelyOn R G Q
  := by
  induction ts generalizing P with
  | nil => exact ⟨trivial, h⟩
  | cons t ts ih =>
      obtain ⟨hadmits, hrun⟩ := ih (h.step hR t)
      refine ⟨⟨?_, hadmits⟩, hrun⟩
      intro f k hp
      obtain ⟨s, hs, hrelies⟩ := h _ _ hp
      exact ⟨⟨s, hs⟩, (hrelies _ hs t.2).1⟩

/-- The result of a finished program satisfies its postcondition. -/
theorem Pool.RelyOn.result (h : P.RelyOn R G Q) {i : Nat} {a : α} (hi : P.result? i = some a) :
  ∃ s, R s P.conf.state ∧ Q i (P.conf.own i) s a
  := by
  obtain ⟨p, hp, hres⟩ := Option.bind_eq_some_iff.mp hi
  obtain ⟨s, hs, hrelies⟩ := h i p hp
  cases p with
  | done b =>
      obtain rfl : b = a := by simpa [Prog.result?] using hres
      exact ⟨s, hs, hrelies⟩
  | act f k => simp [Prog.result?] at hres

/-- The next segment of an unfinished program satisfies its guarantee. -/
theorem Pool.RelyOn.unfinished (h : P.RelyOn R G Q) {i : Nat} (hlt : i < P.procs.length)
    (hi : P.result? i = none) (c : χ) :
  ∃ r, G i (P.conf.own i) P.conf.state r
  := by
  have hp : P.procs[i]? = some P.procs[i] := List.getElem?_eq_getElem hlt
  obtain ⟨s, hs, hrelies⟩ := h i _ hp
  unfold Pool.result? at hi
  rw [hp, Option.bind_some] at hi
  cases hproc : P.procs[i] with
  | done b =>
      rw [hproc] at hi
      cases hi
  | act f k =>
      rw [hproc] at hrelies
      exact ⟨_, (hrelies _ hs c).1⟩

end

/-! ### Programs that can fail -/

/-- `Prog.Relies` with one postcondition for a value and one for an error. -/
def Fallible.Relies (R : σ → σ → Prop) (G : Guarantee σ ε) (Q : List ε → σ → α → Prop)
    (E : List ε → η → Prop) (x : Fallible σ χ ε η α) (h : List ε) (s : σ) : Prop :=
  x.run.Relies R G (fun h' s' r => match r with
    | .ok a => Q h' s' a
    | .error e => E h' e) h s

section

variable {R : σ → σ → Prop} {G : Guarantee σ ε} {E : List ε → η → Prop} {h : List ε} {s : σ}

theorem Fallible.Relies.mono {Q Q' : List ε → σ → α → Prop}
    (hQ : ∀ h s a, Q h s a → Q' h s a) {x : Fallible σ χ ε η α}
    (hx : x.Relies R G Q E h s) :
  x.Relies R G Q' E h s
  := by
  apply Prog.Relies.mono _ hx
  rintro h' s' (e | a) ha
  · exact ha
  · exact hQ h' s' a ha

theorem Fallible.Relies.bind {Q : List ε → σ → α → Prop} {Q' : List ε → σ → β → Prop}
    {x : Fallible σ χ ε η α} {g : α → Fallible σ χ ε η β} (hx : x.Relies R G Q E h s)
    (hg : ∀ h' s' a, Q h' s' a → (g a).Relies R G Q' E h' s') :
  (x >>= g).Relies R G Q' E h s
  := by
  unfold Relies
  rw [run_bind]
  apply Prog.Relies.bind
  apply Prog.Relies.mono _ hx
  rintro h' s' (e | a) ha
  · exact ha
  · exact hg h' s' a ha

theorem Fallible.Relies.pure {Q : List ε → σ → α → Prop} {a : α} (ha : Q h s a) :
  (Pure.pure a : Fallible σ χ ε η α).Relies R G Q E h s
  := ha

theorem Fallible.Relies.throw {Q : List ε → σ → α → Prop} {e : η} (he : E h e) :
  (MonadExcept.throw e : Fallible σ χ ε η α).Relies R G Q E h s
  := he

theorem Fallible.Relies.atomic {Q : List ε → σ → α → Prop}
    {f : σ → χ → Except η α × ε × σ}
    (hf : ∀ t, R s t → ∀ c, G h t (f t c).2 ∧ match (f t c).1 with
      | .ok a => Q ((f t c).2.1 :: h) (f t c).2.2 a
      | .error e => E ((f t c).2.1 :: h) e) :
  (Fallible.atomic f).Relies R G Q E h s
  := hf

end

end Async

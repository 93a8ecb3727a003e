import Mathlib.Logic.Relation
import Mathlib.Data.List.Basic

/-!
# Cooperative programs

A program `Prog σ χ ε α` over a shared state `σ` is a sequence of atomic segments.  A
segment reads the state and an input `χ` of the environment, changes the state and
reports an event `ε`; between two segments other programs may run.  A pool holds a
list of programs and the configuration they share: the state together with the trace
of the events so far, each with the index of the program that reported it, newest
first.  A schedule says which program runs next and on which input, so the runs of a
pool are its schedules.

Two judgements describe a program.  `Prog.Always` says what each of its segments does to
the state, `Prog.Follows` in which order it reports its events.  `Pool.admits_of_always`
and `Pool.run_follows` carry them to every run of every pool, where `Pool.Admits.inv`
turns what the steps do into an invariant of the run.
-/

namespace Async

/-- A program: finished with a result, or an atomic segment followed by the program
that goes on from the state and the input the segment saw. -/
inductive Prog (σ χ ε α : Type) where
  | done (a : α)
  | act (f : σ → χ → ε × σ) (k : σ → χ → Prog σ χ ε α)

variable {σ χ ε α β η : Type}

/-- Run a program and go on with its result. -/
def Prog.bind : Prog σ χ ε α → (α → Prog σ χ ε β) → Prog σ χ ε β
  | .done a, g => g a
  | .act f k, g => .act f (fun s c => (k s c).bind g)

instance : Monad (Prog σ χ ε) where
  pure := .done
  bind := .bind

/-- The program of one segment, whose result is computed by the segment. -/
def Prog.atomic (f : σ → χ → α × ε × σ) : Prog σ χ ε α :=
  .act (fun s c => (f s c).2) (fun s c => .done (f s c).1)

/-- The result of a program that has finished. -/
def Prog.result? : Prog σ χ ε α → Option α
  | .done a => some a
  | .act _ _ => none

/-- Run a program alone, every segment on the input `c`: its result and the state it
leaves. -/
def Prog.alone (c : χ) : Prog σ χ ε α → σ → α × σ
  | .done a, s => (a, s)
  | .act f k, s => (k s c).alone c (f s c).2

/-- The shared state, and the events reported so far, newest first. -/
structure Conf (σ ε : Type) where
  state : σ
  trace : List (Nat × ε)

/-- The configuration after program `i` has reported `r.1` and left the state `r.2`. -/
def Conf.push (cf : Conf σ ε) (i : Nat) (r : ε × σ) : Conf σ ε :=
  ⟨r.2, (i, r.1) :: cf.trace⟩

@[simp]
theorem Conf.push_state (cf : Conf σ ε) (i : Nat) (r : ε × σ) :
  (cf.push i r).state = r.2
  := rfl

@[simp]
theorem Conf.push_trace (cf : Conf σ ε) (i : Nat) (r : ε × σ) :
  (cf.push i r).trace = (i, r.1) :: cf.trace
  := rfl

/-- Programs running over one configuration. -/
structure Pool (σ χ ε α : Type) where
  conf : Conf σ ε
  procs : List (Prog σ χ ε α)

/-- Let program `t.1` run its next segment on the input `t.2`.  Nothing happens when
there is no such program or it has finished. -/
def Pool.step (P : Pool σ χ ε α) (t : Nat × χ) : Pool σ χ ε α :=
  match P.procs[t.1]? with
  | some (.act f k) =>
      ⟨P.conf.push t.1 (f P.conf.state t.2), P.procs.set t.1 (k P.conf.state t.2)⟩
  | _ => P

/-- Run a schedule. -/
def Pool.run (P : Pool σ χ ε α) (sched : List (Nat × χ)) : Pool σ χ ε α :=
  sched.foldl Pool.step P

/-- The result of program `i`, once it has finished. -/
def Pool.result? (P : Pool σ χ ε α) (i : Nat) : Option α :=
  P.procs[i]?.bind Prog.result?

/-- No program of the pool is in flight. -/
def Pool.Quiet (P : Pool σ χ ε α) : Prop :=
  ∀ p ∈ P.procs, p.result?.isSome

/-! ### Properties of the steps of a run -/

/-- A property of a step: the configuration before it, the program that takes it, and
the event and state it leaves. -/
abbrev StepProp (σ ε : Type) := Conf σ ε → Nat → ε × σ → Prop

/-- Every step the schedule takes satisfies `R`. -/
def Pool.Admits (R : StepProp σ ε) : Pool σ χ ε α → List (Nat × χ) → Prop
  | _, [] => True
  | P, t :: ts =>
      (∀ f k, P.procs[t.1]? = some (.act f k) → R P.conf t.1 (f P.conf.state t.2)) ∧
        (P.step t).Admits R ts

/-- A decidable property can be checked along a run. -/
instance Pool.decidableAdmits (R : StepProp σ ε) [∀ cf i r, Decidable (R cf i r)] :
    (P : Pool σ χ ε α) → (ts : List (Nat × χ)) → Decidable (P.Admits R ts)
  | _, [] => isTrue trivial
  | P, t :: ts =>
      match hp : P.procs[t.1]?, Pool.decidableAdmits R (P.step t) ts with
      | _, isFalse hts => isFalse (fun h => hts h.2)
      | some (.act f k), isTrue hts =>
          if hR : R P.conf t.1 (f P.conf.state t.2) then
            isTrue ⟨fun f' k' h' => (by rw [hp] at h'; cases h'; exact hR), hts⟩
          else isFalse (fun h => hR (h.1 f k hp))
      | some (.done a), isTrue hts => isTrue ⟨fun f' k' h' => (by simp [hp] at h'), hts⟩
      | none, isTrue hts => isTrue ⟨fun f' k' h' => (by simp [hp] at h'), hts⟩

/-- A step of a pool is idle, or runs the next segment of one program. -/
theorem Pool.step_cases (P : Pool σ χ ε α) (t : Nat × χ) :
  P.step t = P ∨ ∃ f k, P.procs[t.1]? = some (.act f k) ∧
    P.step t = ⟨P.conf.push t.1 (f P.conf.state t.2), P.procs.set t.1 (k P.conf.state t.2)⟩
  := by
  unfold step
  split
  · rename_i f k h
    right
    use f, k
  · left
    rfl

theorem Pool.run_append (P : Pool σ χ ε α) (ts us : List (Nat × χ)) :
  P.run (ts ++ us) = (P.run ts).run us
  := List.foldl_append

/-- A run neither adds nor drops a program. -/
theorem Pool.length_run (P : Pool σ χ ε α) (ts : List (Nat × χ)) :
  (P.run ts).procs.length = P.procs.length
  := by
  induction ts generalizing P with
  | nil => rfl
  | cons t ts ih =>
      have hstep : (P.step t).procs.length = P.procs.length := by
        obtain hstep | ⟨f, k, -, hstep⟩ := P.step_cases t
        · rw [hstep]
        · rw [hstep, List.length_set]
      exact (ih (P.step t)).trans hstep

/-- Every program of a quiet pool has a result. -/
theorem Pool.Quiet.result {P : Pool σ χ ε α} (h : P.Quiet) {i : Nat} (hi : i < P.procs.length) :
  ∃ a, P.result? i = some a
  := by
  have hres := h P.procs[i] (List.getElem_mem hi)
  rw [Option.isSome_iff_exists] at hres
  obtain ⟨a, ha⟩ := hres
  use a
  unfold Pool.result?
  rw [List.getElem?_eq_getElem hi, Option.bind_some, ha]

/-- Two properties hold of every step exactly when their conjunction does. -/
theorem Pool.admits_and {R S : StepProp σ ε} {P : Pool σ χ ε α} {ts : List (Nat × χ)} :
  P.Admits (fun cf i r => R cf i r ∧ S cf i r) ts ↔ P.Admits R ts ∧ P.Admits S ts
  := by
  induction ts generalizing P with
  | nil => simp [Admits]
  | cons t ts ih =>
      simp only [Admits, ih]
      constructor
      · rintro ⟨h, hR, hS⟩
        exact ⟨⟨fun f k e => (h f k e).1, hR⟩, fun f k e => (h f k e).2, hS⟩
      · rintro ⟨⟨hR, hR'⟩, hS, hS'⟩
        exact ⟨fun f k e => ⟨hR f k e, hS f k e⟩, hR', hS'⟩

/-- What holds of the steps of a run may be weakened. -/
theorem Pool.Admits.mono {R S : StepProp σ ε} (h : ∀ cf i r, R cf i r → S cf i r)
    {P : Pool σ χ ε α} {ts : List (Nat × χ)} (hR : P.Admits R ts) :
  P.Admits S ts
  := by
  induction ts generalizing P with
  | nil => trivial
  | cons t ts ih => exact ⟨fun f k e => h _ _ _ (hR.1 f k e), ih hR.2⟩

/-- An invariant that every step of the run keeps holds before every step of it. -/
theorem Pool.Admits.inv {R : StepProp σ ε} {I : Conf σ ε → Prop}
    (hI : ∀ cf i r, R cf i r → I cf → I (cf.push i r))
    {P : Pool σ χ ε α} {ts : List (Nat × χ)} (hR : P.Admits R ts) (h : I P.conf) :
  P.Admits (fun cf _ _ => I cf) ts ∧ I (P.run ts).conf
  := by
  induction ts generalizing P with
  | nil => exact ⟨trivial, h⟩
  | cons t ts ih =>
      have hnext : I (P.step t).conf := by
        obtain hstep | ⟨f, k, hp, hstep⟩ := P.step_cases t
        · rw [hstep]
          exact h
        · rw [hstep]
          exact hI _ _ _ (hR.1 f k hp) h
      obtain ⟨hadm, hrun⟩ := ih hR.2 hnext
      exact ⟨⟨fun _ _ _ => h, hadm⟩, hrun⟩

/-- A run keeps the trace. -/
theorem Pool.trace_run (P : Pool σ χ ε α) (ts : List (Nat × χ)) {t : Nat × ε}
    (ht : t ∈ P.conf.trace) :
  t ∈ (P.run ts).conf.trace
  := by
  induction ts generalizing P with
  | nil => exact ht
  | cons u ts ih =>
      apply ih
      obtain hstep | ⟨f, k, -, hstep⟩ := P.step_cases u
      · rw [hstep]
        exact ht
      · rw [hstep]
        exact List.mem_cons_of_mem _ ht

/-- The event of every step of a run is in its trace. -/
theorem Pool.admits_mem_trace (P : Pool σ χ ε α) (ts : List (Nat × χ)) :
  P.Admits (fun _ i r => (i, r.1) ∈ (P.run ts).conf.trace) ts
  := by
  induction ts generalizing P with
  | nil => trivial
  | cons t ts ih =>
      refine ⟨fun f k hp => ?_, ih (P.step t)⟩
      apply (P.step t).trace_run ts
      simp [Pool.step, hp]

/-- What the steps of a run yield, in the order of the steps. -/
def Pool.yields {γ : Type} (g : Conf σ ε → Nat → ε × σ → List γ) :
    Pool σ χ ε α → List (Nat × χ) → List γ
  | _, [] => []
  | P, t :: ts =>
      (match P.procs[t.1]? with
        | some (.act f _) => g P.conf t.1 (f P.conf.state t.2)
        | _ => []) ++ (P.step t).yields g ts

/-- When every step folds what it yields into a part of the state, so does the run. -/
theorem Pool.Admits.foldl_yields {γ δ : Type} {R : StepProp σ ε}
    {g : Conf σ ε → Nat → ε × σ → List γ} {v : σ → δ} {op : δ → γ → δ}
    (h : ∀ cf i r, R cf i r → v r.2 = (g cf i r).foldl op (v cf.state))
    {P : Pool σ χ ε α} {ts : List (Nat × χ)} (hR : P.Admits R ts) :
  v (P.run ts).conf.state = (P.yields g ts).foldl op (v P.conf.state)
  := by
  induction ts generalizing P with
  | nil => rfl
  | cons t ts ih =>
      rw [yields, List.foldl_append]
      have hrun : v (P.run (t :: ts)).conf.state = ((P.step t).yields g ts).foldl op
          (v (P.step t).conf.state) := ih hR.2
      rw [hrun]
      congr 1
      cases hp : P.procs[t.1]? with
      | none => simp [step, hp]
      | some p =>
          cases p with
          | done a => simp [step, hp]
          | act f k =>
              have hstep : (P.step t).conf = P.conf.push t.1 (f P.conf.state t.2) := by
                simp [step, hp]
              rw [hstep, Conf.push_state]
              exact h _ _ _ (hR.1 f k hp)

/-! ### What a program always does -/

/-- Every segment of the program is one of `S`. -/
def Prog.Segments (S : (σ → χ → ε × σ) → Prop) : Prog σ χ ε α → Prop
  | .done _ => True
  | .act f k => S f ∧ ∀ s c, (k s c).Segments S

/-- Every segment of the program satisfies `L`, from every state and on every input. -/
abbrev Prog.Always (L : σ → ε × σ → Prop) (p : Prog σ χ ε α) : Prop :=
  p.Segments (fun f => ∀ s c, L s (f s c))

theorem Prog.Segments.bind {S : (σ → χ → ε × σ) → Prop} {p : Prog σ χ ε α}
    {g : α → Prog σ χ ε β} (hp : p.Segments S) (hg : ∀ a, (g a).Segments S) :
  (p.bind g).Segments S
  := by
  induction p with
  | done a => exact hg a
  | act f k ih => exact ⟨hp.1, fun s c => ih s c (hp.2 s c)⟩

theorem Prog.Segments.mono {S T : (σ → χ → ε × σ) → Prop} (h : ∀ f, S f → T f)
    {p : Prog σ χ ε α} (hp : p.Segments S) :
  p.Segments T
  := by
  induction p with
  | done a => trivial
  | act f k ih => exact ⟨h f hp.1, fun s c => ih s c (hp.2 s c)⟩

theorem Prog.segments_true (p : Prog σ χ ε α) :
  p.Segments (fun _ => True)
  := by
  induction p with
  | done a => trivial
  | act f k ih => exact ⟨trivial, fun s c => ih s c⟩

theorem Prog.Always.mono {L M : σ → ε × σ → Prop} (h : ∀ s r, L s r → M s r)
    {p : Prog σ χ ε α} (hp : p.Always L) :
  p.Always M
  := Segments.mono (fun _ hf s c => h _ _ (hf s c)) hp

theorem Prog.alone_bind (c : χ) (p : Prog σ χ ε α) (g : α → Prog σ χ ε β) (s : σ) :
  (p.bind g).alone c s = (g (p.alone c s).1).alone c (p.alone c s).2
  := by
  induction p generalizing s with
  | done a => rfl
  | act f k ih => exact ih s c _

/-- What every segment leaves as it is, a program that runs alone leaves as it is. -/
theorem Prog.Always.alone {v : σ → β} {p : Prog σ χ ε α}
    (hp : p.Always (fun s r => v r.2 = v s)) (c : χ) (s : σ) :
  v (p.alone c s).2 = v s
  := by
  induction p generalizing s with
  | done a => rfl
  | act f k ih => exact (ih s c (hp.2 s c) _).trans (hp.1 s c)

/-- Every step of every run is taken by a segment of the program that takes it. -/
theorem Pool.admits_of_segments {S : Nat → (σ → χ → ε × σ) → Prop} {P : Pool σ χ ε α}
    (h : ∀ (i : Nat) (p : Prog σ χ ε α), P.procs[i]? = some p → p.Segments (S i))
    (ts : List (Nat × χ)) :
  P.Admits (fun cf i r => ∃ f c, S i f ∧ r = f cf.state c) ts
  := by
  induction ts generalizing P with
  | nil => trivial
  | cons t ts ih =>
      constructor
      · intro f k hp
        exact ⟨f, t.2, (h _ _ hp).1, rfl⟩
      · apply ih
        obtain hstep | ⟨f, k, hp, hstep⟩ := P.step_cases t
        · rw [hstep]
          exact h
        · rw [hstep]
          intro i q hq
          by_cases hit : t.1 = i
          · subst hit
            rw [List.getElem?_set_self (List.getElem?_eq_some_iff.mp hp).1] at hq
            cases hq
            exact (h _ _ hp).2 _ _
          · rw [List.getElem?_set_ne hit] at hq
            exact h i q hq

/-- What all programs of a pool always do holds of every step of every run. -/
theorem Pool.admits_of_always {L : σ → ε × σ → Prop} {P : Pool σ χ ε α}
    (h : ∀ p ∈ P.procs, p.Always L) (ts : List (Nat × χ)) :
  P.Admits (fun cf _ r => L cf.state r) ts
  := by
  have hsegments := Pool.admits_of_segments (S := fun _ f => ∀ s c, L s (f s c))
    (fun i p hp => h p (List.mem_of_getElem? hp)) ts
  apply hsegments.mono
  rintro cf i r ⟨f, c, hf, rfl⟩
  exact hf cf.state c

/-! ### Programs over a part of the state -/

section

variable {τ ξ δ : Type}

/-- Run a program over the part `get` of a larger state, on the part `inp` of its input.
`put` writes the part back, and `label` is the event that is reported instead. -/
def Prog.embed (get : τ → σ) (put : τ → ξ → σ → τ) (inp : ξ → χ) (label : ξ → ε → δ) :
    Prog σ χ ε α → Prog τ ξ δ α
  | .done a => .done a
  | .act f k =>
      .act
        (fun t c => (label c (f (get t) (inp c)).1, put t c (f (get t) (inp c)).2))
        (fun t c => (k (get t) (inp c)).embed get put inp label)

/-- The segments of an embedded program are the embedded segments of the program. -/
theorem Prog.Segments.embed {get : τ → σ} {put : τ → ξ → σ → τ} {inp : ξ → χ}
    {label : ξ → ε → δ} {S : (σ → χ → ε × σ) → Prop} {T : (τ → ξ → δ × τ) → Prop}
    (h : ∀ f, S f →
      T (fun t c => (label c (f (get t) (inp c)).1, put t c (f (get t) (inp c)).2)))
    {p : Prog σ χ ε α} (hp : p.Segments S) :
  (p.embed get put inp label).Segments T
  := by
  induction p with
  | done a => trivial
  | act f k ih => exact ⟨h f hp.1, fun t c => ih _ _ (hp.2 _ _)⟩

end

/-! ### Rules on the history of a program -/

/-- The events program `i` has reported, newest first. -/
def Conf.own (cf : Conf σ ε) (i : Nat) : List ε :=
  (cf.trace.filter (fun t => t.1 = i)).map Prod.snd

theorem Conf.mem_own {cf : Conf σ ε} {i : Nat} {ev : ε} :
  ev ∈ cf.own i ↔ (i, ev) ∈ cf.trace
  := by
  simp [own]

@[simp]
theorem Conf.own_push_self (cf : Conf σ ε) (i : Nat) (r : ε × σ) :
  (cf.push i r).own i = r.1 :: cf.own i
  := by
  simp [own]

@[simp]
theorem Conf.own_push_of_ne {i j : Nat} (h : j ≠ i) (cf : Conf σ ε) (r : ε × σ) :
  (cf.push j r).own i = cf.own i
  := by
  simp [own, h]

theorem Conf.own_push (cf : Conf σ ε) (i j : Nat) (r : ε × σ) :
  (cf.push j r).own i = if j = i then r.1 :: cf.own i else cf.own i
  := by
  split
  · rename_i h
    subst h
    exact cf.own_push_self j r
  · rename_i h
    exact cf.own_push_of_ne h r

/-- A rule says which event a program may report next, given the events it has
reported. -/
abbrev Rule (ε : Type) := List ε → ε → Prop

/-- Every event `p` reports from the history `h` on obeys the rule, and when it
finishes, its result and the history it leaves satisfy `Q`. -/
def Prog.Follows (R : Rule ε) (Q : List ε → α → Prop) : Prog σ χ ε α → List ε → Prop
  | .done a, h => Q h a
  | .act f k, h => ∀ s c, R h (f s c).1 ∧ (k s c).Follows R Q ((f s c).1 :: h)

/-- The postcondition may be weakened. -/
theorem Prog.Follows.mono {R : Rule ε} {Q Q' : List ε → α → Prop}
    (hQ : ∀ h a, Q h a → Q' h a) {p : Prog σ χ ε α} {h : List ε} (hp : p.Follows R Q h) :
  p.Follows R Q' h
  := by
  induction p generalizing h with
  | done a => exact hQ h a hp
  | act f k ih => exact fun s c => ⟨(hp s c).1, ih s c (hp s c).2⟩

/-- The rule may be weakened. -/
theorem Prog.Follows.weaken {R R' : Rule ε} (hR : ∀ h ev, R h ev → R' h ev)
    {Q : List ε → α → Prop} {p : Prog σ χ ε α} {h : List ε} (hp : p.Follows R Q h) :
  p.Follows R' Q h
  := by
  induction p generalizing h with
  | done a => exact hp
  | act f k ih => exact fun s c => ⟨hR _ _ (hp s c).1, ih s c (hp s c).2⟩

/-- Sequencing: `p`, then the program its result picks. -/
theorem Prog.Follows.bind {R : Rule ε} {Q : List ε → β → Prop} {p : Prog σ χ ε α}
    {g : α → Prog σ χ ε β} {h : List ε}
    (hp : p.Follows R (fun h' a => (g a).Follows R Q h') h) :
  (p.bind g).Follows R Q h
  := by
  induction p generalizing h with
  | done a => exact hp
  | act f k ih => exact fun s c => ⟨(hp s c).1, ih s c (hp s c).2⟩

/-- A program whose events always obey the rule follows it, and only adds such events. -/
theorem Prog.Always.follows {L : σ → ε × σ → Prop} {P : ε → Prop} {R : Rule ε}
    (hL : ∀ s r, L s r → P r.1) (hR : ∀ h ev, P ev → R h ev) {p : Prog σ χ ε α}
    (hp : p.Always L) (h : List ε) :
  p.Follows R (fun h' _ => ∃ n, h' = n ++ h ∧ ∀ ev ∈ n, P ev) h
  := by
  suffices hfollows : ∀ n, (∀ ev ∈ n, P ev) →
      p.Follows R (fun h' _ => ∃ n, h' = n ++ h ∧ ∀ ev ∈ n, P ev) (n ++ h) from
    hfollows [] (by simp)
  induction p with
  | done a => exact fun n hn => ⟨n, rfl, hn⟩
  | act f k ih =>
      intro n hn s c
      have hev := hL _ _ (hp.1 s c)
      refine ⟨hR _ _ hev, ih s c (hp.2 s c) ((f s c).1 :: n) ?_⟩
      intro ev hmem
      obtain rfl | hmem := List.mem_cons.mp hmem
      · exact hev
      · exact hn ev hmem

/-- If every program of a pool follows its rule, then every event of every run obeys the
rule of the program that reports it, and what is left of each program still follows its
rule. -/
theorem Pool.run_follows {R : Nat → Rule ε} {Q : Nat → List ε → α → Prop}
    {P : Pool σ χ ε α}
    (h : ∀ (i : Nat) (p : Prog σ χ ε α), P.procs[i]? = some p →
      p.Follows (R i) (Q i) (P.conf.own i))
    (ts : List (Nat × χ)) :
  P.Admits (fun cf i r => R i (cf.own i) r.1) ts ∧
    ∀ (i : Nat) (p : Prog σ χ ε α), (P.run ts).procs[i]? = some p →
      p.Follows (R i) (Q i) ((P.run ts).conf.own i)
  := by
  induction ts generalizing P with
  | nil => exact ⟨trivial, h⟩
  | cons t ts ih =>
      suffices hnext : ∀ (i : Nat) (p : Prog σ χ ε α), (P.step t).procs[i]? = some p →
          p.Follows (R i) (Q i) ((P.step t).conf.own i) by
        obtain ⟨hadm, hrun⟩ := ih hnext
        exact ⟨⟨fun f k hp => (h _ _ hp _ _).1, hadm⟩, hrun⟩
      obtain hstep | ⟨f, k, hp, hstep⟩ := P.step_cases t
      · rw [hstep]
        exact h
      · rw [hstep]
        intro i p hi
        by_cases hit : t.1 = i
        · subst hit
          rw [List.getElem?_set_self (List.getElem?_eq_some_iff.mp hp).1] at hi
          cases hi
          rw [Conf.own_push_self]
          exact (h _ _ hp _ _).2
        · rw [List.getElem?_set_ne hit] at hi
          rw [Conf.own_push_of_ne hit]
          exact h i p hi

/-- The result of a finished program and the history it leaves satisfy its
postcondition. -/
theorem Pool.result_follows {R : Nat → Rule ε} {Q : Nat → List ε → α → Prop}
    {P : Pool σ χ ε α}
    (h : ∀ (i : Nat) (p : Prog σ χ ε α), P.procs[i]? = some p →
      p.Follows (R i) (Q i) (P.conf.own i))
    {ts : List (Nat × χ)} {i : Nat} {a : α} (hi : (P.run ts).result? i = some a) :
  Q i ((P.run ts).conf.own i) a
  := by
  obtain ⟨p, hp, hres⟩ := Option.bind_eq_some_iff.mp hi
  have hfol := (run_follows h ts).2 i p hp
  cases p with
  | done b =>
      obtain rfl : b = a := by simpa [Prog.result?] using hres
      exact hfol
  | act f k => simp [Prog.result?] at hres

/-! ### Programs that can fail -/

/-- A computation in `Except` ends in a value when both its parts do. -/
theorem bind_eq_ok_iff {x : Except η α} {g : α → Except η β} {b : β} :
  (x >>= g) = .ok b ↔ ∃ a, x = .ok a ∧ g a = .ok b
  := by
  cases x with
  | error e => simp [bind, Except.bind]
  | ok a => simp [bind, Except.bind]

/-- Programs that end in a value or an error `η`. -/
abbrev Fallible (σ χ ε η α : Type) := ExceptT η (Prog σ χ ε) α

/-- The fallible program of one segment. -/
def Fallible.atomic (f : σ → χ → Except η α × ε × σ) : Fallible σ χ ε η α :=
  ExceptT.mk (Prog.atomic f)

/-- What follows a fallible program: the rest of it after a value, nothing after an
error. -/
def Fallible.after (g : α → Fallible σ χ ε η β) : Except η α → Prog σ χ ε (Except η β)
  | .ok a => (g a).run
  | .error e => .done (.error e)

theorem Fallible.run_bind (x : Fallible σ χ ε η α) (g : α → Fallible σ χ ε η β) :
  (x >>= g).run = Prog.bind x.run (after g)
  := by
  rw [ExceptT.run_bind]
  show Prog.bind _ _ = _
  congr 1
  funext r
  cases r <;> rfl

theorem Fallible.segments_bind {S : (σ → χ → ε × σ) → Prop} {x : Fallible σ χ ε η α}
    {g : α → Fallible σ χ ε η β} (hx : x.run.Segments S) (hg : ∀ a, (g a).run.Segments S) :
  (x >>= g).run.Segments S
  := by
  rw [run_bind]
  apply hx.bind
  rintro (e | a)
  · trivial
  · exact hg a

theorem Fallible.segments_pure {S : (σ → χ → ε × σ) → Prop} (a : α) :
  (pure a : Fallible σ χ ε η α).run.Segments S
  := trivial

theorem Fallible.segments_throw {S : (σ → χ → ε × σ) → Prop} (e : η) :
  (throw e : Fallible σ χ ε η α).run.Segments S
  := trivial

theorem Fallible.segments_atomic {S : (σ → χ → ε × σ) → Prop}
    {f : σ → χ → Except η α × ε × σ} (h : S (fun s c => (f s c).2)) :
  (Fallible.atomic f).run.Segments S
  := ⟨h, fun _ _ => trivial⟩

theorem Fallible.always_bind {L : σ → ε × σ → Prop} {x : Fallible σ χ ε η α}
    {g : α → Fallible σ χ ε η β} (hx : x.run.Always L) (hg : ∀ a, (g a).run.Always L) :
  (x >>= g).run.Always L
  := segments_bind hx hg

theorem Fallible.always_atomic {L : σ → ε × σ → Prop} {f : σ → χ → Except η α × ε × σ}
    (h : ∀ s c, L s (f s c).2) :
  (Fallible.atomic f).run.Always L
  := segments_atomic h

theorem Fallible.alone_atomic (f : σ → χ → Except η α × ε × σ) (c : χ) (s : σ) :
  (Fallible.atomic f).run.alone c s = ((f s c).1, (f s c).2.2)
  := rfl

/-- Running a fallible program alone, after its first part has ended in a value. -/
theorem Fallible.alone_bind {x : Fallible σ χ ε η α} (g : α → Fallible σ χ ε η β) {c : χ}
    {s s' : σ} {a : α} (hx : x.run.alone c s = (.ok a, s')) :
  (x >>= g).run.alone c s = (g a).run.alone c s'
  := by
  rw [run_bind, Prog.alone_bind, hx]
  rfl

/-- A fallible program that runs alone ends with the error of its first part, or goes on with
its value. -/
theorem Fallible.alone_bind_cases {x : Fallible σ χ ε η α} {g : α → Fallible σ χ ε η β} {c : χ}
    {s s' : σ} {r : Except η β} (h : (x >>= g).run.alone c s = (r, s')) :
  (∃ e, x.run.alone c s = (.error e, s') ∧ r = .error e) ∨
    ∃ a t, x.run.alone c s = (.ok a, t) ∧ (g a).run.alone c t = (r, s')
  := by
  rw [run_bind, Prog.alone_bind] at h
  cases hx : x.run.alone c s with
  | mk r t =>
      rw [hx] at h
      cases r with
      | error e =>
          cases h
          exact .inl ⟨e, rfl, rfl⟩
      | ok a => exact .inr ⟨a, t, rfl, h⟩

/-- A fallible program that runs alone to a value has run its first part to one. -/
theorem Fallible.alone_bind_ok {x : Fallible σ χ ε η α} {g : α → Fallible σ χ ε η β} {c : χ}
    {s s' : σ} {b : β} (h : (x >>= g).run.alone c s = (.ok b, s')) :
  ∃ a t, x.run.alone c s = (.ok a, t) ∧ (g a).run.alone c t = (.ok b, s')
  := by
  obtain ⟨e, -, h⟩ | h := alone_bind_cases h
  · cases h
  · exact h

/-- What the rest of a fallible program leaves as it is stays as the first part left it. -/
theorem Fallible.alone_bind_frame {γ : Type} {v : σ → γ} (x : Fallible σ χ ε η α)
    {g : α → Fallible σ χ ε η β} (hg : ∀ a, (g a).run.Always (fun s r => v r.2 = v s))
    (c : χ) (s : σ) :
  v ((x >>= g).run.alone c s).2 = v (x.run.alone c s).2
  := by
  rw [run_bind, Prog.alone_bind]
  cases (x.run.alone c s).1 with
  | error e => rfl
  | ok a => exact (hg a).alone c _

/-- Map the error of a fallible program. -/
def Fallible.mapError (f : η → η) (x : Fallible σ χ ε η α) : Fallible σ χ ε η α :=
  ExceptT.mk (x.run.bind (fun r => .done (r.mapError f)))

theorem Fallible.alone_mapError (f : η → η) (x : Fallible σ χ ε η α) (c : χ) (s : σ) :
  (x.mapError f).run.alone c s = ((x.run.alone c s).1.mapError f, (x.run.alone c s).2)
  := Prog.alone_bind ..

theorem Fallible.segments_mapError {S : (σ → χ → ε × σ) → Prop} {f : η → η}
    {x : Fallible σ χ ε η α} (hx : x.run.Segments S) :
  (x.mapError f).run.Segments S
  := hx.bind (fun _ => trivial)

/-- Run a fallible program and go on with its value or its error. -/
def Fallible.attempt (x : Fallible σ χ ε η α) : Fallible σ χ ε η (Except η α) :=
  ExceptT.mk (x.run.bind (fun r => .done (.ok r)))

theorem Fallible.segments_attempt {S : (σ → χ → ε × σ) → Prop} {x : Fallible σ χ ε η α}
    (hx : x.run.Segments S) :
  x.attempt.run.Segments S
  := hx.bind (fun _ => trivial)

/-- `Prog.Follows` with one postcondition for a value and one for an error. -/
def Fallible.Follows (R : Rule ε) (Q : List ε → α → Prop) (E : List ε → η → Prop)
    (x : Fallible σ χ ε η α) (h : List ε) : Prop :=
  x.run.Follows R (fun h' r => match r with
    | .ok a => Q h' a
    | .error e => E h' e) h

section

variable {R : Rule ε} {E : List ε → η → Prop} {h : List ε}

theorem Fallible.Follows.mono {Q Q' : List ε → α → Prop} {E' : List ε → η → Prop}
    (hQ : ∀ h a, Q h a → Q' h a) (hE : ∀ h e, E h e → E' h e)
    {x : Fallible σ χ ε η α} (hx : x.Follows R Q E h) :
  x.Follows R Q' E' h
  := by
  apply Prog.Follows.mono _ hx
  rintro h' (e | a)
  · exact hE h' e
  · exact hQ h' a

theorem Fallible.Follows.bind {Q : List ε → β → Prop} {x : Fallible σ χ ε η α}
    {g : α → Fallible σ χ ε η β}
    (hx : x.Follows R (fun h' a => (g a).Follows R Q E h') E h) :
  (x >>= g).Follows R Q E h
  := by
  unfold Follows
  rw [run_bind]
  apply Prog.Follows.bind
  apply Prog.Follows.mono _ hx
  rintro h' (e | a) ha
  · exact ha
  · exact ha

theorem Fallible.Follows.pure {Q : List ε → α → Prop} {a : α} (ha : Q h a) :
  (Pure.pure a : Fallible σ χ ε η α).Follows R Q E h
  := ha

theorem Fallible.Follows.throw {Q : List ε → α → Prop} {e : η} (he : E h e) :
  (MonadExcept.throw e : Fallible σ χ ε η α).Follows R Q E h
  := he

theorem Fallible.Follows.atomic {Q : List ε → α → Prop} {f : σ → χ → Except η α × ε × σ}
    (hf : ∀ s c, R h (f s c).2.1 ∧ match (f s c).1 with
      | .ok a => Q ((f s c).2.1 :: h) a
      | .error e => E ((f s c).2.1 :: h) e) :
  (Fallible.atomic f).Follows R Q E h
  := hf

theorem Fallible.Follows.mapError {Q : List ε → α → Prop} {f : η → η}
    {x : Fallible σ χ ε η α} (hx : x.Follows R Q (fun h' e => E h' (f e)) h) :
  (x.mapError f).Follows R Q E h
  := by
  apply Prog.Follows.bind
  apply Prog.Follows.mono _ hx
  rintro h' (e | a) ha
  · exact ha
  · exact ha

end

end Async

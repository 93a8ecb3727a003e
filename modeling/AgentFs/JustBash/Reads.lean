import AgentFs.JustBash.FileSystem

/-!
# What the operations do to the drive

A computation that only reads leaves the drive, and what it answers is true of it; `mkdir` may
add a marker; `rm` of a directory removes the files below it.
-/

namespace AgentFs.JustBash

open Fueled

/-- The computation leaves the drive, and its value is as `Q` says. -/
def Reads {α : Type} (d : Drive) (x : Sh α) (Q : α → Prop) : Prop :=
  Triple (fun s => s.drive = d) x (fun r s => s.drive = d ∧ ∀ a, r = .ok a → Q a)

section

variable {α β : Type} {d : Drive} {Q : α → Prop} {R : β → Prop}

theorem Reads.pure {a : α} (h : Q a) :
  Reads d (Pure.pure a : Sh α) Q
  := by
  apply Triple.pure
  rintro s hs
  refine ⟨hs, ?_⟩
  rintro _ ⟨⟩
  exact h

theorem Reads.throw {e : ShellError} :
  Reads d (Fueled.throw e : Sh α) Q
  := by
  apply Triple.throw
  intro s hs
  exact ⟨hs, by rintro _ ⟨⟩⟩

theorem Reads.bind {x : Sh α} {f : α → Sh β} (hx : Reads d x Q)
    (hf : ∀ a, Q a → Reads d (f a) R) :
  Reads d (x >>= f) R
  := by
  apply Triple.bind hx
  · rintro a s ⟨hs, ha⟩
    exact hf a (ha a rfl) s hs
  · rintro e s ⟨hs, -⟩
    exact ⟨hs, by rintro _ ⟨⟩⟩

theorem Reads.orElse {x : Sh α} {a : α} (hx : Reads d x Q) :
  Reads d (x.orElse a) (fun _ => True)
  := by
  apply Triple.orElse hx
  · rintro b s ⟨hs, -⟩
    exact ⟨hs, fun _ _ => trivial⟩
  · rintro e s ⟨hs, -⟩
    exact ⟨hs, fun _ _ => trivial⟩

theorem Reads.weaken {Q' : α → Prop} {x : Sh α} (hx : Reads d x Q) (h : ∀ a, Q a → Q' a) :
  Reads d x Q'
  := by
  apply Triple.weaken hx (fun _ hs => hs)
  rintro r s ⟨hs, ha⟩
  exact ⟨hs, fun a hr => h a (ha a hr)⟩

/-- Go on after a computation that only reads. -/
theorem Reads.triple {x : Sh α} {f : α → Sh β} {P : Except ShellError β → Shell → Prop}
    (hx : Reads d x Q) (hf : ∀ a, Q a → Triple (fun s => s.drive = d) (f a) P)
    (herror : ∀ e s, s.drive = d → P (.error e) s) :
  Triple (fun s => s.drive = d) (x >>= f) P
  := by
  apply Triple.bind hx
  · rintro a s ⟨hs, ha⟩
    exact hf a (ha a rfl) s hs
  · rintro e s ⟨hs, -⟩
    exact herror e s hs

/-- A loop of which every round only reads. -/
theorem Reads.collect {γ : Type} {f : α → Sh (List γ)} {xs : List α} {Q : α → List γ → Prop}
    (h : ∀ a ∈ xs, Reads d (f a) (Q a)) :
  Reads d (Fueled.collect f xs) (fun all =>
    (∀ c ∈ all, ∃ a ∈ xs, ∃ found, Q a found ∧ c ∈ found) ∧
      ∀ a ∈ xs, ∃ found, Q a found ∧ ∀ c ∈ found, c ∈ all)
  := by
  induction xs with
  | nil =>
      apply Reads.pure
      exact ⟨fun c hc => absurd hc List.not_mem_nil, fun a ha => absurd ha List.not_mem_nil⟩
  | cons a rest ih =>
      apply Reads.bind (h a List.mem_cons_self)
      intro found hfound
      apply Reads.bind (ih (fun b hb => h b (List.mem_cons_of_mem _ hb)))
      rintro others ⟨hall, heach⟩
      apply Reads.pure
      constructor
      · intro c hc
        rcases List.mem_append.mp hc with hc | hc
        · exact ⟨a, List.mem_cons_self, found, hfound, hc⟩
        · obtain ⟨b, hb, found', hfound', hc'⟩ := hall c hc
          exact ⟨b, List.mem_cons_of_mem _ hb, found', hfound', hc'⟩
      · intro b hb
        rcases List.mem_cons.mp hb with rfl | hb
        · exact ⟨found, hfound, fun c hc => List.mem_append_left _ hc⟩
        · obtain ⟨found', hfound', hc'⟩ := heach b hb
          exact ⟨found', hfound', fun c hc => List.mem_append_right _ (hc' c hc)⟩

end

/-! ### Reading -/

section

variable {fate : Nat → Fate} {arrange : List LsEntry → List LsEntry} {marker : Text} {d : Drive}

theorem remember_reads (routes : List Route) :
  Reads d (remember routes) (fun _ => True)
  := by
  apply Triple.change
  intro s hs
  exact ⟨hs, fun _ _ => trivial⟩

theorem forgetDirectory_reads (route : Route) :
  Reads d (forgetDirectory route) (fun _ => True)
  := by
  apply Triple.change
  intro s hs
  exact ⟨hs, fun _ _ => trivial⟩

theorem ask_reads {α : Type} (f : Drive → α) :
  Reads d (ask fate f) (fun a => a = f d)
  := by
  rintro s rfl
  unfold ask
  cases fate s.requests with
  | ok =>
      refine ⟨_, _, rfl, rfl, ?_⟩
      rintro _ ⟨⟩
      rfl
  | failed done => exact ⟨_, _, rfl, rfl, by rintro _ ⟨⟩⟩

theorem fileExists_reads (route : Route) :
  Reads d (fileExists fate route) (fun found => found = (d.get route).isSome)
  := by
  apply Reads.bind (ask_reads _)
  rintro _ rfl
  cases (d.get route).isSome with
  | true =>
      apply Reads.bind (remember_reads _)
      intro u hu
      exact Reads.pure rfl
  | false => exact Reads.pure rfl

theorem listDirectory_reads (route : Route) (includeMarkers : Bool) :
  Reads d (listDirectory fate arrange marker route includeMarkers) (fun entries =>
    entries = if includeMarkers then ls arrange route d
      else (ls arrange route d).filter (fun entry => entry.name ≠ marker))
  := by
  apply Reads.bind (ask_reads _)
  rintro _ rfl
  apply Reads.bind (remember_reads _)
  intro u hu
  exact Reads.pure rfl

theorem directoryExists_reads (route : Route) :
  Reads d (directoryExists fate arrange marker route) (fun _ => True)
  := by
  unfold directoryExists
  split
  · exact Reads.pure trivial
  · apply Reads.bind (listDirectory_reads route true)
    intro entries hentries
    split
    · apply Reads.bind (remember_reads _)
      intro u hu
      exact Reads.pure trivial
    · apply Triple.read
      intro s hs
      exact ⟨hs, fun _ _ => trivial⟩

theorem stat_reads (route : Route) :
  Reads d (stat fate arrange marker route) (fun _ => True)
  := by
  apply Reads.bind (fileExists_reads route)
  intro found hfound
  split
  · exact Reads.pure trivial
  · apply Reads.bind (directoryExists_reads route)
    intro found hfound
    split
    · apply Reads.bind (remember_reads _)
      intro u hu
      exact Reads.pure trivial
    · exact Reads.throw

theorem pathExists_reads (route : Route) :
  Reads d (pathExists fate arrange marker route) (fun _ => True)
  := by
  unfold pathExists
  split
  · exact Reads.pure trivial
  · exact Reads.orElse (stat_reads route)

theorem validatePath_reads (operation : String) (route : Route) :
  Reads d (validatePath operation route) (fun _ => True)
  := by
  unfold validatePath
  split
  · exact Reads.throw
  · exact Reads.pure trivial

theorem assertParentWritable_reads (operation : String) (route : Route) :
  Reads d (assertParentWritable fate operation route) (fun _ => True)
  := by
  unfold assertParentWritable
  split
  · exact Reads.pure trivial
  · apply Reads.bind (fileExists_reads _)
    intro found hfound
    split
    · exact Reads.throw
    · exact Reads.pure trivial

theorem assertParentDirectory_reads (operation : String) (route : Route) (recursive : Bool) :
  Reads d (assertParentDirectory fate arrange marker operation route recursive) (fun _ => True)
  := by
  unfold assertParentDirectory
  split
  · exact Reads.pure trivial
  · apply Reads.bind (fileExists_reads _)
    intro found hfound
    split
    · exact Reads.throw
    · split
      · exact Reads.pure trivial
      · apply Reads.bind (directoryExists_reads _)
        intro found hfound
        split
        · exact Reads.pure trivial
        · exact Reads.throw

/-! ### Writing -/

/-- A request that changes the drive has none of its effects, or some of the first ones when it
fails. -/
theorem mutate_triple (op : DriveOp) :
  Triple (fun s => s.drive = d) (mutate fate op) (fun r s =>
    (∃ e, r = .error e ∧ s.drive = d) ∨
      ∃ effects, op.effects d = some effects ∧
        ((r = .ok () ∧ s.drive = effects.foldl Effect.apply d) ∨
          ∃ e done, r = .error e ∧ s.drive = (effects.take done).foldl Effect.apply d))
  := by
  rintro s rfl
  unfold mutate
  cases heffects : op.effects s.drive with
  | none => exact ⟨_, _, rfl, .inl ⟨_, rfl, rfl⟩⟩
  | some effects =>
      cases fate s.requests with
      | ok => exact ⟨_, _, rfl, .inr ⟨effects, rfl, .inl ⟨rfl, rfl⟩⟩⟩
      | failed done => exact ⟨_, _, rfl, .inr ⟨effects, rfl, .inr ⟨_, done, rfl, rfl⟩⟩⟩

/-- A request with one effect has it or not. -/
theorem mutate_single {op : DriveOp} {effect : Effect} (h : op.effects d = some [effect]) :
  Triple (fun s => s.drive = d) (mutate fate op) (fun r s =>
    (∃ e, r = .error e ∧ s.drive = d) ∨ s.drive = effect.apply d)
  := by
  apply Triple.weaken (mutate_triple op) (fun _ hs => hs)
  rintro r s (herror | ⟨effects, heffects, ⟨-, hs⟩ | ⟨e, done, hr, hs⟩⟩)
  · exact .inl herror
  · rw [h, Option.some.injEq] at heffects
    subst heffects
    exact .inr hs
  · rw [h, Option.some.injEq] at heffects
    subst heffects
    cases done with
    | zero => exact .inl ⟨e, hr, hs⟩
    | succ done => exact .inr (by rw [hs, List.take_succ_cons, List.take_nil]; rfl)

/-- `mkdir` may add a marker. -/
theorem mkdir_triple (route : Route) :
  Triple (fun s => s.drive = d) (mkdir fate arrange marker route true) (fun _ s =>
    s.drive = d ∨ s.drive = d.set (markerPath marker route) [])
  := by
  apply Reads.triple (validatePath_reads _ _)
  · intro u hu
    split
    · exact Triple.pure (fun s hs => .inl hs)
    · apply Reads.triple (pathExists_reads route)
      · intro found hfound
        split
        · exact Triple.pure (fun s hs => .inl hs)
        · apply Reads.triple (assertParentDirectory_reads _ _ _)
          · intro u hu
            apply Triple.bind (mutate_single rfl)
            · intro u s hs
              have hdrive : s.drive = d.set (markerPath marker route) [] := by
                rcases hs with ⟨e, ⟨⟩, -⟩ | hs
                exact hs
              apply (Reads.triple (remember_reads _) _ _) s hdrive
              · intro u hu
                apply Triple.weaken (remember_reads _) (fun _ hs => hs)
                exact fun r s hs => .inr hs.1
              · exact fun e s hs => .inr hs
            · rintro e s (⟨-, -, hs⟩ | hs)
              · exact .inl hs
              · exact .inr hs
          · exact fun e s hs => .inl hs
      · exact fun e s hs => .inl hs
  · exact fun e s hs => .inl hs

end

end AgentFs.JustBash

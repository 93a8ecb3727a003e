import Mathlib.Data.List.DropRight

/-!
# Edit scripts

A script keeps, removes and adds elements, and so turns the list of what it keeps and removes
into the list of what it keeps and adds.  The elements of the two lists are counted from 1.
-/

namespace EditScript

/-- One step of a script. -/
inductive Edit (α : Type) where
  | keep (a : α)
  | remove (a : α)
  | add (a : α)
  deriving DecidableEq, Repr

variable {α : Type}

namespace Edit

def item : Edit α → α
  | keep a | remove a | add a => a

def isKeep : Edit α → Bool
  | keep _ => true
  | _ => false

def isAdd : Edit α → Bool
  | add _ => true
  | _ => false

def old? : Edit α → Option α
  | keep a | remove a => some a
  | add _ => none

def new? : Edit α → Option α
  | keep a | add a => some a
  | remove _ => none

end Edit

/-- The list a script starts from. -/
def oldItems (script : List (Edit α)) : List α := script.filterMap Edit.old?

/-- The list a script ends with. -/
def newItems (script : List (Edit α)) : List α := script.filterMap Edit.new?

def olds (script : List (Edit α)) : ℕ := (oldItems script).length

def news (script : List (Edit α)) : ℕ := (newItems script).length

@[simp] theorem olds_nil : olds ([] : List (Edit α)) = 0 := rfl
@[simp] theorem news_nil : news ([] : List (Edit α)) = 0 := rfl

@[simp] theorem olds_keep (a : α) (s : List (Edit α)) : olds (.keep a :: s) = olds s + 1 := rfl
@[simp] theorem olds_remove (a : α) (s : List (Edit α)) : olds (.remove a :: s) = olds s + 1 := rfl
@[simp] theorem olds_add (a : α) (s : List (Edit α)) : olds (.add a :: s) = olds s := rfl

@[simp] theorem news_keep (a : α) (s : List (Edit α)) : news (.keep a :: s) = news s + 1 := rfl
@[simp] theorem news_remove (a : α) (s : List (Edit α)) : news (.remove a :: s) = news s := rfl
@[simp] theorem news_add (a : α) (s : List (Edit α)) : news (.add a :: s) = news s + 1 := rfl

@[simp] theorem olds_append (s t : List (Edit α)) : olds (s ++ t) = olds s + olds t := by
  simp [olds, oldItems]

@[simp] theorem news_append (s t : List (Edit α)) : news (s ++ t) = news s + news t := by
  simp [news, newItems]

theorem olds_cons (e : Edit α) (s : List (Edit α)) : olds (e :: s) = olds [e] + olds s :=
  olds_append [e] s

theorem news_cons (e : Edit α) (s : List (Edit α)) : news (e :: s) = news [e] + news s :=
  news_append [e] s

/-- A script that only keeps has as many elements on both sides as steps. -/
theorem keptOnly_lengths {script : List (Edit α)} (h : ∀ e ∈ script, e.isKeep = true) :
  olds script = script.length ∧ news script = script.length
  := by
  induction script with
  | nil => exact ⟨rfl, rfl⟩
  | cons e script ih =>
      obtain ⟨holds, hnews⟩ := ih (fun x hx => h x (List.mem_cons_of_mem e hx))
      have hkeep := h e List.mem_cons_self
      cases e with
      | keep a => exact ⟨congrArg (· + 1) holds, congrArg (· + 1) hnews⟩
      | _ => cases hkeep

/-- The `i`th element of the old list is kept, as the `j`th of the new one. -/
def Survives (script : List (Edit α)) (i j : ℕ) : Prop :=
  ∃ before a after, script = before ++ .keep a :: after ∧ i = olds before + 1 ∧ j = news before + 1

/-- Each element of the old list is kept or removed at its place. -/
theorem exists_old {script : List (Edit α)} {i : ℕ} (hpos : 1 ≤ i) (hle : i ≤ olds script) :
  ∃ before e after, script = before ++ e :: after ∧ e.isAdd = false ∧ olds before + 1 = i
  := by
  induction script generalizing i with
  | nil => exact absurd hle (by simp; omega)
  | cons e script ih =>
      have hlater : ∀ k, k + olds [e] = i → 1 ≤ k →
          ∃ before x after, e :: script = before ++ x :: after ∧ x.isAdd = false ∧
            olds before + 1 = i := by
        intro k hk hkpos
        rw [olds_cons] at hle
        obtain ⟨before, x, after, hscript, hx, hbefore⟩ := ih hkpos (by omega)
        refine ⟨e :: before, x, after, by rw [hscript]; rfl, hx, ?_⟩
        rw [olds_cons]
        omega
      by_cases hadd : e.isAdd = true
      · cases e with
        | add a => exact hlater i rfl hpos
        | _ => cases hadd
      · rw [Bool.not_eq_true] at hadd
        by_cases hi : i = 1
        · exact ⟨[], e, script, rfl, hadd, hi.symm⟩
        · apply hlater (i - 1)
          · cases e with
            | add a => cases hadd
            | _ => simp; omega
          · omega

/-- Its place is unique. -/
theorem old_unique {before before' after after' : List (Edit α)} {e e' : Edit α}
    (h : before ++ e :: after = before' ++ e' :: after') (he : e.isAdd = false)
    (he' : e'.isAdd = false) (holds : olds before = olds before') :
  before = before' ∧ e = e' ∧ after = after'
  := by
  have hsame : ∀ x : Edit α, x.isAdd = false → 1 ≤ olds [x] := by
    intro x hx
    cases x with
    | add a => cases hx
    | _ => simp
  rcases List.append_eq_append_iff.mp h with ⟨t, rfl, ht⟩ | ⟨t, rfl, ht⟩
  · cases t with
    | nil =>
        rw [List.nil_append] at ht
        cases ht
        exact ⟨(List.append_nil before).symm, rfl, rfl⟩
    | cons x t =>
        cases ht
        have hone := hsame e he
        rw [olds_append, olds_cons] at holds
        omega
  · cases t with
    | nil =>
        rw [List.nil_append] at ht
        cases ht
        exact ⟨List.append_nil before', rfl, rfl⟩
    | cons x t =>
        cases ht
        have hone := hsame e' he'
        rw [olds_append, olds_cons] at holds
        omega

/-- An element that survives comes, in the new list, after what is new before an earlier place; if
that place is not kept, something new is left after it. -/
theorem Survives.after_place {script before after : List (Edit α)} {e : Edit α} {i j : ℕ}
    (h : Survives script i j) (hscript : script = before ++ e :: after) (hle : olds before + 1 ≤ i) :
  news before + 1 ≤ j ∧ (e.isKeep = false → 0 < news after)
  := by
  obtain ⟨before', a, after', hscript', rfl, rfl⟩ := h
  rw [hscript] at hscript'
  rcases List.append_eq_append_iff.mp hscript' with ⟨t, rfl, ht⟩ | ⟨t, rfl, ht⟩
  · constructor
    · rw [news_append]
      omega
    · intro hkeep
      cases t with
      | nil =>
          cases ht
          cases hkeep
      | cons x t =>
          have hafter : after = t ++ .keep a :: after' := (List.cons.inj ht).2
          rw [hafter, news_append, news_keep]
          omega
  · cases t with
    | nil =>
        cases ht
        rw [List.append_nil]
        exact ⟨le_rfl, nofun⟩
    | cons x t =>
        cases ht
        rw [olds_append, olds_keep] at hle
        omega

/-! ### Ranges that are removed -/

/-- The elements from the first to the last of a range are removed: by `inner` and the step after
it. -/
structure RemovedRange (script : List (Edit α)) (first last : ℕ) (before inner : List (Edit α))
    (a : α) (after : List (Edit α)) : Prop where
  eq : script = before ++ (inner ++ .remove a :: after)
  first : olds before + 1 = first
  last : olds before + olds inner + 1 = last
  removed : ∀ e ∈ inner, e.isKeep = false
  head : ∀ e ∈ inner.head?, e.isAdd = false

theorem RemovedRange.unique {script : List (Edit α)} {first last : ℕ}
    {before inner after before' inner' after' : List (Edit α)} {a a' : α}
    (h : RemovedRange script first last before inner a after)
    (h' : RemovedRange script first last before' inner' a' after') :
  before = before' ∧ inner = inner' ∧ a = a' ∧ after = after'
  := by
  have hlast : before ++ inner = before' ++ inner' ∧ Edit.remove a = .remove a' ∧ after = after' := by
    apply old_unique
    · rw [List.append_assoc, List.append_assoc, ← h.eq, h'.eq]
    · rfl
    · rfl
    · rw [olds_append, olds_append]
      have := h.last
      have := h'.last
      omega
  obtain ⟨hfront, ha, hafter⟩ := hlast
  have hhead : ∀ (inner : List (Edit α)) (a : α) (after : List (Edit α)),
      (∀ e ∈ inner.head?, e.isAdd = false) →
        ∃ e rest, inner ++ .remove a :: after = e :: rest ∧ e.isAdd = false := by
    intro inner a after hinner
    cases inner with
    | nil => exact ⟨_, _, rfl, rfl⟩
    | cons e inner => exact ⟨_, _, rfl, hinner e rfl⟩
  obtain ⟨e, rest, hcons, he⟩ := hhead inner a after h.head
  obtain ⟨e', rest', hcons', he'⟩ := hhead inner' a' after' h'.head
  have hscript := h.eq.symm.trans h'.eq
  rw [hcons, hcons'] at hscript
  have hbefore := (old_unique hscript he he' (by
    have := h.first
    have := h'.first
    omega)).1
  subst hbefore
  exact ⟨rfl, List.append_cancel_left hfront, Edit.remove.inj ha, hafter⟩

/-- Nothing of a removed range survives. -/
theorem RemovedRange.not_survives {script : List (Edit α)} {first last : ℕ}
    {before inner after : List (Edit α)} {a : α}
    (h : RemovedRange script first last before inner a after) {i j : ℕ} (hi : first ≤ i)
    (hj : i ≤ last) :
  ¬ Survives script i j
  := by
  rintro ⟨before', b, after', hscript, rfl, -⟩
  have hfirst := h.first
  have hlast := h.last
  rw [h.eq] at hscript
  rcases List.append_eq_append_iff.mp hscript with ⟨t, rfl, ht⟩ | ⟨t, rfl, ht⟩
  · rw [olds_append] at hj
    rcases List.append_eq_append_iff.mp ht with ⟨s, rfl, hs⟩ | ⟨s, rfl, hs⟩
    · cases s with
      | nil => cases hs
      | cons x s =>
          cases hs
          rw [olds_append, olds_remove] at hj
          omega
    · cases s with
      | nil => cases hs
      | cons x s =>
          cases hs
          cases h.removed _ (List.mem_append_right t List.mem_cons_self)
  · cases t with
    | nil =>
        cases inner with
        | nil => cases ht
        | cons x inner =>
            cases ht
            cases h.removed _ List.mem_cons_self
    | cons x t =>
        cases ht
        rw [olds_append, olds_keep] at hfirst
        omega

/-- A range in which nothing is kept is removed. -/
theorem exists_removedRange {script : List (Edit α)} {first last : ℕ} (hpos : 1 ≤ first)
    (hle : first ≤ last) (hlast : last ≤ olds script)
    (hnone : ∀ i j, first ≤ i → i ≤ last → ¬ Survives script i j) :
  ∃ before inner a after, RemovedRange script first last before inner a after
  := by
  obtain ⟨before, e, rest, hscript, he, hbefore⟩ := exists_old hpos (hle.trans hlast)
  have holds : olds script = olds before + olds (e :: rest) := by
    rw [hscript, olds_append]
  obtain ⟨inner, x, after, hrest, hx, hinner⟩ :=
    @exists_old α (e :: rest) (last - first + 1) (by omega) (by omega)
  rw [hrest] at hscript
  have hremoved : ∀ y ∈ inner, y.isKeep = false := by
    intro y hy
    cases y with
    | keep b =>
        obtain ⟨s, t, rfl⟩ := List.append_of_mem hy
        have hsum := olds_append s (.keep b :: t)
        rw [olds_keep] at hsum
        have hsurvives : Survives script (olds (before ++ s) + 1) (news (before ++ s) + 1) :=
          ⟨before ++ s, b, t ++ x :: after, by rw [hscript]; simp, rfl, rfl⟩
        rw [olds_append] at hsurvives
        exact absurd hsurvives (hnone _ _ (by omega) (by omega))
    | _ => rfl
  cases x with
  | keep b =>
      have hsurvives : Survives script last (news (before ++ inner) + 1) :=
        ⟨before ++ inner, b, after, by rw [hscript]; simp, by rw [olds_append]; omega, rfl⟩
      exact absurd hsurvives (hnone _ _ hle le_rfl)
  | add b => cases hx
  | remove b =>
      refine ⟨before, inner, b, after, hscript, hbefore, by omega, hremoved, ?_⟩
      intro y hy
      cases inner with
      | nil => cases hy
      | cons z inner =>
          cases hy
          cases hrest
          exact he

/-- What the script removes and adds around a range, up to what it keeps. -/
def changeBlock (before inner : List (Edit α)) (a : α) (after : List (Edit α)) : List (Edit α) :=
  before.rtakeWhile (fun e => ¬ e.isKeep) ++
    (inner ++ .remove a :: after.takeWhile (fun e => ¬ e.isKeep))

/-- The changes at the start of a script, up to an item that does not satisfy `p`. -/
def reach (p : α → Bool) : List (Edit α) → List (Edit α)
  | [] => []
  | e :: script => if e.isKeep then [] else e :: if p e.item then reach p script else []

/-- The part of the block that is reached from the range through items that satisfy `p`. -/
def reachedBlock (p : α → Bool) (before inner : List (Edit α)) (a : α) (after : List (Edit α)) :
    List (Edit α) :=
  before.rtakeWhile (fun e => ¬ e.isKeep ∧ p e.item) ++ (inner ++ reach p (.remove a :: after))

theorem reach_subset (p : α → Bool) (script : List (Edit α)) :
  reach p script ⊆ script.takeWhile (fun e => ¬ e.isKeep)
  := by
  induction script with
  | nil => exact List.Subset.refl _
  | cons e script ih =>
      unfold reach
      by_cases hkeep : e.isKeep = true
      · rw [if_pos hkeep]
        apply List.nil_subset
      · rw [if_neg hkeep, List.takeWhile_cons_of_pos (by simpa using hkeep)]
        apply List.cons_subset_cons
        split
        · exact ih
        · apply List.nil_subset

/-- What is reached is in the block. -/
theorem reachedBlock_subset {p : α → Bool} {before inner : List (Edit α)} {a : α}
    {after : List (Edit α)} :
  reachedBlock p before inner a after ⊆ changeBlock before inner a after
  := by
  have hbefore : before.rtakeWhile (fun e => ¬ e.isKeep ∧ p e.item) ⊆
      before.rtakeWhile (fun e => ¬ e.isKeep) := by
    induction before using List.reverseRecOn with
    | nil => exact List.Subset.refl _
    | append_singleton before e ih =>
        by_cases hboth : ¬ e.isKeep = true ∧ p e.item = true
        · rw [List.rtakeWhile_concat_pos _ _ _ (by simpa using hboth),
            List.rtakeWhile_concat_pos _ _ _ (by simpa using hboth.1)]
          exact List.append_subset.mpr ⟨List.subset_append_of_subset_left _ ih,
            List.subset_append_right _ _⟩
        · rw [List.rtakeWhile_concat_neg _ _ _ (by simpa using hboth)]
          apply List.nil_subset
  have hafter := reach_subset p (.remove a :: after)
  rw [List.takeWhile_cons_of_pos (by rfl)] at hafter
  unfold reachedBlock changeBlock
  apply List.append_subset.mpr
  constructor
  · exact List.subset_append_of_subset_left _ hbefore
  · apply List.subset_append_of_subset_right
    apply List.append_subset.mpr
    exact ⟨List.subset_append_left _ _, List.subset_append_of_subset_right _ hafter⟩

/-! ### Counting -/

/-- How many elements from `first` to `last` a script removes whose old list starts at `o`. -/
def removedIn (first last : ℕ) : ℕ → List (Edit α) → ℕ
  | _, [] => 0
  | o, .keep _ :: script => removedIn first last (o + 1) script
  | o, .remove _ :: script =>
      (if first ≤ o ∧ o ≤ last then 1 else 0) + removedIn first last (o + 1) script
  | o, .add _ :: script => removedIn first last o script

/-- No element from `first` to `last` is kept by a script whose old list starts at `o`. -/
def KeepsNone (first last o : ℕ) (script : List (Edit α)) : Prop :=
  ∀ before a after, script = before ++ .keep a :: after →
    ¬ (first ≤ o + olds before ∧ o + olds before ≤ last)

theorem keepsNone_cons {first last o : ℕ} {e : Edit α} {script : List (Edit α)} :
  KeepsNone first last o (e :: script) ↔
    (e.isKeep = true → ¬ (first ≤ o ∧ o ≤ last)) ∧ KeepsNone first last (o + olds [e]) script
  := by
  constructor
  · intro h
    constructor
    · intro hkeep
      cases e with
      | keep a => exact h [] a script rfl
      | _ => cases hkeep
    · intro before a after hscript
      have hrange := h (e :: before) a after (by rw [hscript]; rfl)
      rwa [← List.singleton_append, olds_append, ← Nat.add_assoc] at hrange
  · rintro ⟨hhead, htail⟩ before a after hscript
    cases before with
    | nil =>
        cases hscript
        exact hhead rfl
    | cons x before =>
        cases hscript
        have hrange := htail before a after rfl
        rwa [Nat.add_assoc, ← olds_append, List.singleton_append] at hrange

/-- At most all elements of a range that are in the list are removed; all are when none is kept. -/
theorem removedIn_spec (first last o : ℕ) (script : List (Edit α)) :
  removedIn first last o script ≤ min (last + 1) (o + olds script) - max first o ∧
    (removedIn first last o script = min (last + 1) (o + olds script) - max first o ↔
      KeepsNone first last o script)
  := by
  induction script generalizing o with
  | nil =>
      constructor
      · exact Nat.zero_le _
      · constructor
        · intro _ before a after hscript
          cases before with
          | nil => cases hscript
          | cons x before => cases hscript
        · intro _
          rw [removedIn, olds_nil]
          omega
  | cons e script ih =>
      rw [keepsNone_cons]
      cases e with
      | keep a =>
          obtain ⟨hle, hiff⟩ := ih (o + 1)
          rw [removedIn, olds_keep, olds_keep, olds_nil, Nat.zero_add, ← hiff]
          simp only [Edit.isKeep, forall_const]
          omega
      | remove a =>
          obtain ⟨hle, hiff⟩ := ih (o + 1)
          rw [removedIn, olds_remove, olds_remove, olds_nil, Nat.zero_add, ← hiff]
          simp only [Edit.isKeep, Bool.false_eq_true, false_implies, true_and]
          split
          · omega
          · omega
      | add a =>
          obtain ⟨hle, hiff⟩ := ih o
          simp only [Edit.isKeep, Bool.false_eq_true, false_implies, true_and]
          exact ⟨hle, hiff⟩

/-- A range of the list is removed when as many of its elements are as it has. -/
theorem removedIn_eq_iff {first last : ℕ} {script : List (Edit α)} (hpos : 1 ≤ first)
    (hle : first ≤ last) (hlast : last ≤ olds script) :
  removedIn first last 1 script = last - first + 1 ↔
    ∀ i j, first ≤ i → i ≤ last → ¬ Survives script i j
  := by
  have hspec := (removedIn_spec first last 1 script).2
  have hlength : min (last + 1) (1 + olds script) - max first 1 = last - first + 1 := by omega
  rw [hlength] at hspec
  rw [hspec]
  constructor
  · rintro h i j hi hj ⟨before, a, after, hscript, rfl, rfl⟩
    exact h before a after hscript ⟨by omega, by omega⟩
  · rintro h before a after hscript ⟨hi, hj⟩
    exact h (olds before + 1) _ (by omega) (by omega) ⟨before, a, after, hscript, rfl, rfl⟩

end EditScript

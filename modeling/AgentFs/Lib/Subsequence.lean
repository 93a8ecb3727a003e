import Mathlib.Data.List.Basic

/-!
# Greedy subsequences

A list is a subsequence of another when each of its elements can be found after the place where
the one before it was first found.
-/

namespace Subsequence

variable {α : Type} [DecidableEq α]

/-- The first place of an element at `start` or later. -/
def indexFrom (l : List α) (a : α) (start : ℕ) : Option ℕ :=
  ((l.drop start).idxOf? a).map (start + ·)

/-- The first element of a subsequence can be taken where it occurs first. -/
theorem cons_sublist_iff_idxOf {a : α} {w l : List α} :
  (a :: w).Sublist l ↔ ∃ i, l.idxOf? a = some i ∧ w.Sublist (l.drop (i + 1))
  := by
  induction l with
  | nil => simp
  | cons b l ih =>
      rw [List.idxOf?_cons]
      by_cases hb : b = a
      · subst hb
        simp [List.cons_sublist_cons]
      · have hskip : (a :: w).Sublist (b :: l) ↔ (a :: w).Sublist l := by
          constructor
          · intro h
            cases h with
            | cons _ h => exact h
            | cons_cons _ h => exact absurd rfl hb
          · exact List.Sublist.cons b
        rw [hskip, ih, if_neg (by simpa using hb)]
        constructor
        · rintro ⟨i, hi, hw⟩
          exact ⟨i + 1, by rw [hi]; rfl, hw⟩
        · rintro ⟨i, hi, hw⟩
          obtain ⟨j, hj, rfl⟩ := Option.map_eq_some_iff.mp hi
          exact ⟨j, hj, hw⟩

/-- The same from a place on. -/
theorem cons_sublist_drop_iff {a : α} {w l : List α} {start : ℕ} :
  (a :: w).Sublist (l.drop start) ↔
    ∃ i, indexFrom l a start = some i ∧ w.Sublist (l.drop (i + 1))
  := by
  rw [cons_sublist_iff_idxOf]
  unfold indexFrom
  constructor
  · rintro ⟨i, hi, hw⟩
    rw [List.drop_drop] at hw
    exact ⟨start + i, by rw [hi]; rfl, hw⟩
  · rintro ⟨i, hi, hw⟩
    obtain ⟨j, hj, rfl⟩ := Option.map_eq_some_iff.mp hi
    refine ⟨j, hj, ?_⟩
    rw [List.drop_drop]
    exact hw

end Subsequence

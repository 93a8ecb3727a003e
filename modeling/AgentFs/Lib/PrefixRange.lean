import Mathlib.Data.Char
import Mathlib.Data.List.Lex
import Mathlib.Order.Cover

/-!
# Prefixes as ranges

In the lexicographic order of lists, those that start with `d ++ [a]` are a half-open range, if
`a` has a successor.
-/

namespace List

variable {α : Type} [LinearOrder α]

theorem not_cons_lt_singleton_iff {a c : α} {s : List α} :
  ¬ c :: s < [a] ↔ a ≤ c
  := by
  rw [cons_lt_cons_iff]
  simp

/-- The lists from `d ++ [a]` on up to `d ++ [b]`, where nothing is between `a` and `b`. -/
theorem range_iff_prefix {a b : α} (hab : a ⋖ b) (d s : List α) :
  (¬ s < d ++ [a] ∧ s < d ++ [b]) ↔ d ++ [a] <+: s
  := by
  induction d generalizing s with
  | nil =>
      cases s with
      | nil => simp
      | cons c s =>
          rw [nil_append, nil_append, not_cons_lt_singleton_iff, cons_lt_cons_iff,
            cons_prefix_cons]
          simp only [not_lt_nil, and_false, or_false, nil_prefix, and_true]
          constructor
          · rintro ⟨hle, hlt⟩
            rcases hle.lt_or_eq with hac | hac
            · exact absurd hlt (hab.2 hac)
            · exact hac
          · rintro rfl
            exact ⟨le_refl a, hab.1⟩
  | cons x d ih =>
      cases s with
      | nil => simp
      | cons c s =>
          rw [cons_append, cons_append, cons_lt_cons_iff, cons_lt_cons_iff, cons_prefix_cons,
            ← ih s]
          constructor
          · rintro ⟨hge, hlt⟩
            rw [not_or, not_and] at hge
            rcases hlt with hcx | ⟨rfl, hlt⟩
            · exact absurd hcx hge.1
            · exact ⟨rfl, hge.2 rfl, hlt⟩
          · rintro ⟨rfl, hge, hlt⟩
            refine ⟨?_, .inr ⟨rfl, hlt⟩⟩
            rintro (hlt' | ⟨-, hlt'⟩)
            · exact absurd hlt' (lt_irrefl x)
            · exact hge hlt'

end List

/-- The character after the slash. -/
theorem Char.slash_covBy_zero :
  '/' ⋖ '0'
  := by
  refine ⟨by decide, ?_⟩
  intro c hlow hhigh
  have hlow' : '/'.toNat < c.toNat := hlow
  have hhigh' : c.toNat < '0'.toNat := hhigh
  have hsucc : '0'.toNat = '/'.toNat + 1 := by decide
  omega

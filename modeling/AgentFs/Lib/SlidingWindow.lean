import Mathlib.Algebra.Order.Group.Defs
import Mathlib.Algebra.Order.Sub.Defs
import Mathlib.Data.List.Perm.Basic

/-!
# Sliding windows

A limiter that admits at most `limit` times in any window of a given width.  It keeps some of
the times it admitted; what it decides at `now` depends on those after `now - width` alone.
-/

namespace SlidingWindow

variable {T : Type}

section

variable [Sub T] [LT T] [DecidableLT T]

/-- The times that still count at `now`. -/
def live (width now : T) (times : List T) : List T :=
  times.filter (now - width < ·)

theorem live_append (width now : T) (times times' : List T) :
  live width now (times ++ times') = live width now times ++ live width now times'
  := List.filter_append times times'

theorem length_live_le (width now : T) (times : List T) :
  (live width now times).length ≤ times.length
  := List.length_filter_le _ times

end

/-- What counts later is among what counts now. -/
theorem live_live [AddCommGroup T] [LinearOrder T] [IsOrderedAddMonoid T] {width now later : T}
    (h : now ≤ later) (times : List T) :
  live width later (live width now times) = live width later times
  := by
  unfold live
  rw [List.filter_filter]
  congr 1
  funext t
  rw [Bool.and_eq_left_iff_imp]
  intro ht
  rw [decide_eq_true_eq] at ht ⊢
  apply lt_of_le_of_lt (sub_le_sub_right h width) ht

/-- The admitted times of a limiter, the newest first. -/
inductive Spaced [Sub T] [LE T] [LT T] [DecidableLT T] (width : T) (limit : ℕ) : List T → Prop where
  | nil : Spaced width limit []
  | accept {now : T} {past : List T} (hpast : Spaced width limit past)
      (hlast : ∀ t ∈ past, t ≤ now) (hlive : (live width now past).length < limit) :
      Spaced width limit (now :: past)

/-- No window has more than `limit` of the times, whichever of its ends belong to it. -/
theorem Spaced.length_filter_le [AddCommGroup T] [LinearOrder T] {width : T} {limit : ℕ} {times : List T}
    (h : Spaced width limit times) {window : T → Prop} [DecidablePred window]
    (hwidth : ∀ s t, window s → window t → t - width < s) :
  (times.filter window).length ≤ limit
  := by
  induction h with
  | nil => apply Nat.zero_le
  | @accept now past hpast hlast hlive ih =>
      by_cases hnow : window now
      · have hsub : (past.filter window).Sublist (live width now past) := by
          apply List.monotone_filter_right
          intro t ht
          rw [decide_eq_true_eq] at ht ⊢
          apply hwidth t now ht hnow
        rw [List.filter_cons_of_pos (by simpa using hnow), List.length_cons]
        apply Nat.succ_le_of_lt (Nat.lt_of_le_of_lt hsub.length_le hlive)
      · rw [List.filter_cons_of_neg (by simpa using hnow)]
        exact ih

/-- From `now` on, the kept times count for what the admitted ones do. -/
def Agrees [Sub T] [LE T] [LT T] [DecidableLT T] (width now : T) (past times : List T) : Prop :=
  ∀ later, now ≤ later → (live width later times).Perm (live width later past)

theorem Agrees.nil [Sub T] [LE T] [LT T] [DecidableLT T] (width now : T) :
  Agrees width now [] []
  := fun _ _ => List.Perm.refl _

variable [AddCommGroup T] [LinearOrder T]

theorem Agrees.mono {width now now' : T} {past times : List T} (h : Agrees width now past times)
    (hnow : now ≤ now') :
  Agrees width now' past times
  := fun later hlater => h later (le_trans hnow hlater)

/-- Forgetting the times that no longer count changes nothing. -/
theorem Agrees.live [IsOrderedAddMonoid T] {width now : T} {past times : List T} (h : Agrees width now past times) :
  Agrees width now past (live width now times)
  := by
  intro later hlater
  rw [live_live hlater]
  apply h later hlater

theorem Agrees.accept [IsOrderedAddMonoid T] {width now : T} {past times : List T} (h : Agrees width now past times) :
  Agrees width now (now :: past) (SlidingWindow.live width now times ++ [now])
  := by
  intro later hlater
  have hpast := h.live later hlater
  have hnewest : SlidingWindow.live width later (now :: past) = SlidingWindow.live width later [now] ++ SlidingWindow.live width later past :=
    live_append width later [now] past
  rw [live_append, hnewest]
  apply List.perm_append_comm.trans
  apply hpast.append_left

end SlidingWindow

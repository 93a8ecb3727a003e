import Mathlib.Data.List.Basic
import Mathlib.Data.List.Infix
import Mathlib.Data.List.Nodup

/-!
# The first of each key

From a list, the first element of each key that was not seen before.  A part of the result is
the result of a part, and the rest is the result with the keys of the part seen.
-/

namespace Distinct

variable {α β : Type} [DecidableEq β] (key : α → β)

/-- The first element of each key that is not in `seen`. -/
def firstOfEach : List β → List α → List α
  | _, [] => []
  | seen, a :: l =>
      if key a ∈ seen then firstOfEach seen l
      else a :: firstOfEach (key a :: seen) l

variable {key}

@[simp]
theorem firstOfEach_nil (seen : List β) :
  firstOfEach key seen [] = []
  := rfl

theorem firstOfEach_cons_seen {seen : List β} {a : α} (h : key a ∈ seen) (l : List α) :
  firstOfEach key seen (a :: l) = firstOfEach key seen l
  := if_pos h

theorem firstOfEach_cons_new {seen : List β} {a : α} (h : key a ∉ seen) (l : List α) :
  firstOfEach key seen (a :: l) = a :: firstOfEach key (key a :: seen) l
  := if_neg h

/-- Only which keys were seen matters. -/
theorem firstOfEach_congr {seen seen' : List β} (h : ∀ b, b ∈ seen ↔ b ∈ seen') (l : List α) :
  firstOfEach key seen l = firstOfEach key seen' l
  := by
  induction l generalizing seen seen' with
  | nil => rfl
  | cons a l ih =>
      by_cases ha : key a ∈ seen
      · rw [firstOfEach_cons_seen ha, firstOfEach_cons_seen ((h _).mp ha), ih h]
      · rw [firstOfEach_cons_new ha, firstOfEach_cons_new (fun h' => ha ((h _).mpr h'))]
        apply congrArg
        apply ih
        intro b
        rw [List.mem_cons, List.mem_cons, h]

variable (key) in
/-- The elements whose key was not seen. -/
def unseen (seen : List β) (l : List α) : List α :=
  l.filter (fun a => key a ∉ seen)

theorem mem_unseen {seen : List β} {l : List α} {a : α} :
  a ∈ unseen key seen l ↔ a ∈ l ∧ key a ∉ seen
  := by
  unfold unseen
  rw [List.mem_filter, decide_eq_true_eq]

theorem unseen_eq_self {seen : List β} {l : List α} (h : ∀ a ∈ l, key a ∉ seen) :
  unseen key seen l = l
  := by
  unfold unseen
  rw [List.filter_eq_self]
  exact fun a ha => decide_eq_true (h a ha)

/-- The keys that were seen may be left out before. -/
theorem firstOfEach_append_seen (seen others : List β) (l : List α) :
  firstOfEach key (seen ++ others) l = firstOfEach key others (unseen key seen l)
  := by
  unfold unseen
  induction l generalizing others with
  | nil => rfl
  | cons a l ih =>
      by_cases ha : key a ∈ seen
      · rw [firstOfEach_cons_seen (List.mem_append_left _ ha), List.filter_cons_of_neg, ih]
        simpa using ha
      · rw [List.filter_cons_of_pos (by simpa using ha)]
        by_cases ha' : key a ∈ others
        · rw [firstOfEach_cons_seen (List.mem_append_right _ ha'), firstOfEach_cons_seen ha', ih]
        · rw [firstOfEach_cons_new (by simp [ha, ha']), firstOfEach_cons_new ha', ← ih]
          apply congrArg
          apply firstOfEach_congr
          intro b
          simp only [List.mem_cons, List.mem_append]
          tauto

/-- The rest of the result is the result with the keys of its first part seen. -/
theorem drop_firstOfEach (n : Nat) (seen : List β) (l : List α) :
  (firstOfEach key seen l).drop n =
    firstOfEach key (((firstOfEach key seen l).take n).map key ++ seen) l
  := by
  induction l generalizing n seen with
  | nil => simp
  | cons a l ih =>
      by_cases ha : key a ∈ seen
      · rw [firstOfEach_cons_seen ha, firstOfEach_cons_seen (List.mem_append_right _ ha), ih]
      · rw [firstOfEach_cons_new ha]
        cases n with
        | zero => simp [firstOfEach_cons_new ha]
        | succ n =>
            rw [List.drop_succ_cons, List.take_succ_cons, List.map_cons, List.cons_append,
              firstOfEach_cons_seen List.mem_cons_self, ih]
            apply firstOfEach_congr
            intro b
            simp only [List.mem_cons, List.mem_append]
            tauto

/-- The rest of the result comes from the elements whose key is not in its first part. -/
theorem firstOfEach_unseen_take (n : Nat) (l : List α) :
  firstOfEach key [] (unseen key (((firstOfEach key [] l).take n).map key) l) =
    (firstOfEach key [] l).drop n
  := by
  rw [drop_firstOfEach, firstOfEach_append_seen]

theorem firstOfEach_eq_nil_iff {l : List α} :
  firstOfEach key [] l = [] ↔ l = []
  := by
  cases l with
  | nil => exact iff_of_true rfl rfl
  | cons a l =>
      rw [firstOfEach_cons_new List.not_mem_nil]
      exact iff_of_false (List.cons_ne_nil _ _) (List.cons_ne_nil _ _)

/-- The result of a part is a part of the result. -/
theorem firstOfEach_take_prefix (k : Nat) (seen : List β) (l : List α) :
  firstOfEach key seen (l.take k) <+: firstOfEach key seen l
  := by
  induction l generalizing k seen with
  | nil => simp
  | cons a l ih =>
      cases k with
      | zero => simp
      | succ k =>
          rw [List.take_succ_cons]
          by_cases ha : key a ∈ seen
          · rw [firstOfEach_cons_seen ha, firstOfEach_cons_seen ha]
            apply ih
          · rw [firstOfEach_cons_new ha, firstOfEach_cons_new ha, List.cons_prefix_cons]
            exact ⟨rfl, ih k _⟩

theorem firstOfEach_sublist (seen : List β) (l : List α) :
  (firstOfEach key seen l).Sublist l
  := by
  induction l generalizing seen with
  | nil => exact List.Sublist.refl []
  | cons a l ih =>
      by_cases ha : key a ∈ seen
      · rw [firstOfEach_cons_seen ha]
        exact (ih seen).cons a
      · rw [firstOfEach_cons_new ha]
        exact (ih _).cons_cons a

theorem mem_keys_firstOfEach_iff (seen : List β) (l : List α) (b : β) :
  b ∈ (firstOfEach key seen l).map key ↔ b ∉ seen ∧ b ∈ l.map key
  := by
  induction l generalizing seen with
  | nil => simp
  | cons a l ih =>
      by_cases ha : key a ∈ seen
      · rw [firstOfEach_cons_seen ha, ih, List.map_cons, List.mem_cons]
        constructor
        · exact fun h => ⟨h.1, .inr h.2⟩
        · rintro ⟨hseen, rfl | hmem⟩
          · exact absurd ha hseen
          · exact ⟨hseen, hmem⟩
      · rw [firstOfEach_cons_new ha, List.map_cons, List.mem_cons, ih, List.map_cons, List.mem_cons,
          List.mem_cons]
        by_cases hb : b = key a
        · subst hb
          simp [ha]
        · simp [hb]

theorem nodup_keys_firstOfEach (seen : List β) (l : List α) :
  ((firstOfEach key seen l).map key).Nodup
  := by
  induction l generalizing seen with
  | nil => exact List.nodup_nil
  | cons a l ih =>
      by_cases ha : key a ∈ seen
      · rw [firstOfEach_cons_seen ha]
        apply ih
      · rw [firstOfEach_cons_new ha, List.map_cons, List.nodup_cons, mem_keys_firstOfEach_iff]
        exact ⟨fun h => h.1 List.mem_cons_self, ih _⟩

/-- The first element of a key is below all others of it, in a list that goes up. -/
theorem firstOfEach_least {r : α → α → Prop} (hrefl : ∀ a, r a a) {seen : List β} {l : List α}
    (h : l.Pairwise r) {a : α} (ha : a ∈ firstOfEach key seen l) {b : α} (hb : b ∈ l)
    (hkey : key b = key a) :
  r a b
  := by
  induction l generalizing seen with
  | nil => exact absurd hb List.not_mem_nil
  | cons c l ih =>
      rw [List.pairwise_cons] at h
      by_cases hc : key c ∈ seen
      · rw [firstOfEach_cons_seen hc] at ha
        have hmem := (mem_keys_firstOfEach_iff seen l (key a)).mp (List.mem_map_of_mem ha)
        rcases List.mem_cons.mp hb with rfl | hb
        · rw [hkey] at hc
          exact absurd hc hmem.1
        · exact ih h.2 ha hb
      · rw [firstOfEach_cons_new hc] at ha
        rcases List.mem_cons.mp ha with rfl | ha
        · rcases List.mem_cons.mp hb with rfl | hb
          · exact hrefl b
          · exact h.1 b hb
        · have hmem := (mem_keys_firstOfEach_iff _ l (key a)).mp (List.mem_map_of_mem ha)
          rcases List.mem_cons.mp hb with rfl | hb
          · rw [hkey] at hmem
            exact absurd List.mem_cons_self hmem.1
          · exact ih h.2 ha hb

end Distinct

import Mathlib.Data.List.Nodup

/-!
# Numbered names

Names that are told apart by the number of their occurrence: the first occurrence keeps the name,
a later one gets a label that is made from the name and the number.  Labels of later occurrences
differ, but such a label can also be the name of something else.
-/

/-- A way to label the occurrences of names. -/
structure NameNumbering (α : Type) where
  label : α → Nat → α
  label_zero (a : α) : label a 0 = a
  label_injective {a b : α} {m n : Nat} (h : label a (m + 1) = label b (n + 1)) : a = b ∧ m = n

namespace NameNumbering

variable {α : Type} [BEq α] (N : NameNumbering α)

/-- The labels of names, after those seen. -/
def labelsFrom (seen : List α) : List α → List α
  | [] => []
  | a :: names => N.label a (seen.count a) :: labelsFrom (a :: seen) names

/-- The labels of names. -/
def labels (names : List α) : List α :=
  N.labelsFrom [] names

@[simp]
theorem length_labelsFrom (seen names : List α) :
  (N.labelsFrom seen names).length = names.length
  := by
  induction names generalizing seen with
  | nil => rfl
  | cons a names ih => simp [labelsFrom, ih]

@[simp]
theorem length_labels (names : List α) :
  (N.labels names).length = names.length
  := N.length_labelsFrom [] names

theorem labelsFrom_concat (seen names : List α) (a : α) :
  N.labelsFrom seen (names ++ [a]) =
    N.labelsFrom seen names ++ [N.label a (seen.count a + names.count a)]
  := by
  induction names generalizing seen with
  | nil => simp [labelsFrom]
  | cons b names ih =>
      simp only [List.cons_append, labelsFrom, ih, List.count_cons]
      congr 4
      omega

/-- The last name is numbered by its occurrences before. -/
theorem labels_concat (names : List α) (a : α) :
  N.labels (names ++ [a]) = N.labels names ++ [N.label a (names.count a)]
  := by
  unfold labels
  rw [labelsFrom_concat, List.count_nil, Nat.zero_add]

variable [LawfulBEq α]

/-- A name is numbered by those before it. -/
theorem getElem_labelsFrom (seen names : List α) (i : Nat)
    (hi : i < (N.labelsFrom seen names).length) (hi' : i < names.length) :
  (N.labelsFrom seen names)[i] =
    N.label names[i] (seen.count names[i] + names.countBefore names[i] i)
  := by
  induction names generalizing seen i with
  | nil => exact absurd hi' (Nat.not_lt_zero i)
  | cons a names ih =>
      cases i with
      | zero => simp [labelsFrom]
      | succ i =>
          have hlt : i < names.length := Nat.lt_of_succ_lt_succ hi'
          simp only [labelsFrom, List.getElem_cons_succ]
          rw [ih (a :: seen) i _ hlt, List.countBefore_cons_succ, List.count_cons]
          congr 1
          by_cases hname : names[i] = a
          · simp [hname]
            omega
          · simp [Ne.symm hname]

theorem getElem_labels {names : List α} {i : Nat} (hi : i < (N.labels names).length)
    (hi' : i < names.length) :
  (N.labels names)[i] = N.label names[i] (names.countBefore names[i] i)
  := by
  unfold labels
  rw [N.getElem_labelsFrom [] names i hi hi', List.count_nil, Nat.zero_add]

/-- Every occurrence of a name has its label. -/
theorem exists_label {names : List α} {a : α} {n : Nat} (h : n < names.count a) :
  ∃ i, ∃ hi : i < (N.labels names).length, ∃ hi' : i < names.length,
    names[i] = a ∧ names.countBefore a i = n ∧ (N.labels names)[i] = N.label a n
  := by
  have hi' := List.idxOfNth_lt_length_of_lt_count h
  have hi : names.idxOfNth a n < (N.labels names).length := by
    rw [length_labels]
    exact hi'
  have hname : names[names.idxOfNth a n] = a := List.getElem_idxOfNth_eq
  have hcount := List.countBefore_idxOfNth_of_lt_count h
  refine ⟨_, hi, hi', hname, hcount, ?_⟩
  rw [getElem_labels N hi hi', hname, hcount]

/-- The labels are those of the occurrences. -/
theorem mem_labels_iff {names : List α} {b : α} :
  b ∈ N.labels names ↔ ∃ a, ∃ n < names.count a, N.label a n = b
  := by
  constructor
  · intro hmem
    obtain ⟨i, hi, hlabel⟩ := List.getElem_of_mem hmem
    have hi' : i < names.length := by rwa [← N.length_labels]
    rw [getElem_labels N hi hi'] at hlabel
    exact ⟨_, _, List.countBefore_lt_count_getElem, hlabel⟩
  · rintro ⟨a, n, hn, rfl⟩
    obtain ⟨i, hi, -, -, -, hlabel⟩ := N.exists_label hn
    rw [← hlabel]
    apply List.getElem_mem

theorem mem_labels_of_mem {names : List α} {a : α} (h : a ∈ names) :
  a ∈ N.labels names
  := N.mem_labels_iff.mpr ⟨a, 0, List.count_pos_iff.mpr h, N.label_zero a⟩

/-- No name is the label of a later occurrence of another. -/
def NoClash (names : List α) : Prop :=
  ∀ a ∈ names, ∀ n < names.count a, 0 < n → N.label a n ∉ names

/-- The labels differ exactly when none of a later occurrence is a name. -/
theorem nodup_labels_iff (names : List α) :
  (N.labels names).Nodup ↔ N.NoClash names
  := by
  constructor
  · intro hnodup a _ n hn hpos hmem
    obtain ⟨i, hi, hi', hat, hcount, hlabel⟩ := N.exists_label hn
    obtain ⟨j, hj, hj', hat', hcount', hlabel'⟩ := N.exists_label (List.count_pos_iff.mpr hmem)
    have hsame : i = j := by
      apply (List.Nodup.getElem_inj_iff hnodup).mp
      rw [hlabel, hlabel', N.label_zero]
    subst hsame
    rw [hat] at hat'
    rw [← hat', hcount] at hcount'
    omega
  · intro hclash
    rw [List.nodup_iff_injective_get]
    rintro ⟨i, hi⟩ ⟨j, hj⟩ hsame
    have hi' : i < names.length := by rwa [← N.length_labels]
    have hj' : j < names.length := by rwa [← N.length_labels]
    simp only [List.get_eq_getElem, getElem_labels N hi hi', getElem_labels N hj hj'] at hsame
    have hcount : names.countBefore names[i] i < names.count names[i] :=
      List.countBefore_lt_count_getElem
    have hcount' : names.countBefore names[j] j < names.count names[j] :=
      List.countBefore_lt_count_getElem
    -- A position is determined by its name and the number of its occurrence.
    have hplace : names[i] = names[j] ∧
        names.countBefore names[i] i = names.countBefore names[j] j := by
      cases hm : names.countBefore names[i] i with
      | zero =>
          cases hn : names.countBefore names[j] j with
          | zero =>
              rw [hm, hn, N.label_zero, N.label_zero] at hsame
              exact ⟨hsame, rfl⟩
          | succ n =>
              rw [hm, hn, N.label_zero] at hsame
              rw [hn] at hcount'
              have hfree := hclash _ (List.getElem_mem hj') _ hcount' n.succ_pos
              rw [← hsame] at hfree
              exact absurd (List.getElem_mem hi') hfree
      | succ m =>
          cases hn : names.countBefore names[j] j with
          | zero =>
              rw [hm, hn, N.label_zero] at hsame
              rw [hm] at hcount
              have hfree := hclash _ (List.getElem_mem hi') _ hcount m.succ_pos
              rw [hsame] at hfree
              exact absurd (List.getElem_mem hj') hfree
          | succ n =>
              rw [hm, hn] at hsame
              obtain ⟨hname, rfl⟩ := N.label_injective hsame
              exact ⟨hname, rfl⟩
    have hback : names.idxOfNth names[i] (names.countBefore names[i] i) = i :=
      List.idxOfNth_countBefore_getElem
    rw [hplace.2, hplace.1, List.idxOfNth_countBefore_getElem] at hback
    exact Fin.ext hback.symm

end NameNumbering

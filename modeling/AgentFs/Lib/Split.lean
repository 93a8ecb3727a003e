import Mathlib.Data.List.Basic

/-!
# Splitting lists

The segments of a list at the elements that satisfy a predicate: splitting at two
predicates in turn, and the segments that are not empty.
-/

namespace List

variable {α : Type}

/-- The segments of a list at both predicates are the segments, at the one, of its
segments at the other. -/
theorem splitOnP_or (p q : α → Bool) (l : List α) :
  l.splitOnP (fun a => p a || q a) = (l.splitOnP p).flatMap (List.splitOnP q)
  := by
  induction l with
  | nil => rfl
  | cons a l ih =>
      rw [splitOnP_cons_eq_if_modifyHead, splitOnP_cons_eq_if_modifyHead, ih]
      cases hp : p a with
      | true => simp
      | false =>
          obtain ⟨s, rest, hsplit⟩ := exists_cons_of_ne_nil (splitOnP_ne_nil p l)
          rw [hsplit]
          cases hq : q a with
          | true => simp [splitOnP_cons_eq_if_modifyHead, hq]
          | false =>
              obtain ⟨t, rest', hsplit'⟩ := exists_cons_of_ne_nil (splitOnP_ne_nil q s)
              simp [splitOnP_cons_eq_if_modifyHead, hq, hsplit']

/-- A segment at one predicate without an element of the other is a segment at both. -/
theorem mem_splitOnP_or {p q : α → Bool} {l s : List α} (hs : s ∈ l.splitOnP p)
    (hq : ∀ a ∈ s, q a = false) :
  s ∈ l.splitOnP (fun a => p a || q a)
  := by
  rw [splitOnP_or, mem_flatMap]
  refine ⟨s, hs, ?_⟩
  rw [splitOnP_eq_singleton hq]
  apply mem_singleton_self

/-- No segment has an element it was split at. -/
theorem not_of_mem_splitOnP {p : α → Bool} {l s : List α} (hs : s ∈ l.splitOnP p) {a : α}
    (ha : a ∈ s) :
  p a = false
  := by
  induction l generalizing s with
  | nil =>
      rw [splitOnP_nil, mem_singleton] at hs
      rw [hs] at ha
      cases ha
  | cons b l ih =>
      rw [splitOnP_cons_eq_if_modifyHead] at hs
      cases hb : p b with
      | true =>
          rw [if_pos hb, mem_cons] at hs
          cases hs with
          | inl hnil =>
              rw [hnil] at ha
              cases ha
          | inr hs => exact ih hs ha
      | false =>
          obtain ⟨t, rest, hsplit⟩ := exists_cons_of_ne_nil (splitOnP_ne_nil p l)
          rw [hb, if_neg Bool.false_ne_true, hsplit, modifyHead_cons, mem_cons] at hs
          cases hs with
          | inl hcons =>
              rw [hcons, mem_cons] at ha
              cases ha with
              | inl hhead => rw [hhead, hb]
              | inr htail =>
                  apply ih _ htail
                  rw [hsplit]
                  apply mem_cons_self
          | inr hrest =>
              apply ih _ ha
              rw [hsplit]
              exact mem_cons_of_mem _ hrest

/-- Lists are split alike at their first `a`. -/
theorem append_cons_inj {a : α} {l l' r r' : List α} (hl : a ∉ l) (hl' : a ∉ l')
    (h : l ++ a :: r = l' ++ a :: r') :
  l = l' ∧ r = r'
  := by
  induction l generalizing l' with
  | nil =>
      cases l' with
      | nil => exact ⟨rfl, List.tail_eq_of_cons_eq h⟩
      | cons b l' => exact absurd (List.head_eq_of_cons_eq h) (List.ne_of_not_mem_cons hl')
  | cons b l ih =>
      cases l' with
      | nil => exact absurd (List.head_eq_of_cons_eq h).symm (List.ne_of_not_mem_cons hl)
      | cons c l' =>
          obtain ⟨rfl, htail⟩ := List.cons_eq_cons.mp h
          obtain ⟨rfl, rfl⟩ := ih (List.not_mem_of_not_mem_cons hl)
            (List.not_mem_of_not_mem_cons hl') htail
          exact ⟨rfl, rfl⟩

/-- A property of all elements of a given list, by evaluation. -/
theorem forall_mem_of_all {p : α → Prop} [DecidablePred p] {l : List α}
    (h : l.all (fun a => p a) = true) :
  ∀ a ∈ l, p a
  := fun a ha => of_decide_eq_true (all_eq_true.mp h a ha)

/-- The segments are parts of the joined list. -/
theorem infix_intercalate (sep : List α) {segment : List α} {segments : List (List α)}
    (h : segment ∈ segments) :
  segment <:+: sep.intercalate segments
  := by
  induction segments with
  | nil => cases h
  | cons first segments ih =>
      by_cases hne : segments = []
      · subst hne
        rewrite [mem_singleton.mp h, intercalate_singleton]
        exact infix_rfl
      · rw [intercalate_cons_of_ne_nil hne]
        obtain rfl | h := mem_cons.mp h
        · rw [append_assoc]
          exact (prefix_append _ _).isInfix
        · exact (ih h).trans (suffix_append _ _).isInfix

theorem mem_of_mem_intercalate {sep : List α} {segments : List (List α)} {a : α}
    (h : a ∈ sep.intercalate segments) :
  a ∈ sep ∨ ∃ segment ∈ segments, a ∈ segment
  := by
  induction segments with
  | nil => cases h
  | cons first segments ih =>
      by_cases hne : segments = []
      · subst hne
        rw [intercalate_singleton] at h
        exact .inr ⟨first, mem_cons_self, h⟩
      · rw [intercalate_cons_of_ne_nil hne, mem_append, mem_append] at h
        obtain (h | h) | h := h
        · exact .inr ⟨first, mem_cons_self, h⟩
        · exact .inl h
        · obtain h | ⟨segment, hsegment, ha⟩ := ih h
          · exact .inl h
          · exact .inr ⟨segment, mem_cons_of_mem _ hsegment, ha⟩

/-- An element other than the separator is in a segment. -/
theorem exists_mem_splitOn {α : Type} [BEq α] [LawfulBEq α] {a c : α} {l : List α} (hc : c ∈ l)
    (hne : c ≠ a) :
  ∃ s ∈ l.splitOn a, c ∈ s
  := by
  induction l with
  | nil => cases hc
  | cons b l ih =>
      rw [splitOn_cons_eq_if_modifyHead]
      obtain ⟨s, rest, hsplit⟩ := exists_cons_of_ne_nil (splitOn_ne_nil a l)
      rw [hsplit] at ih ⊢
      split
      · rename_i hba
        rw [beq_iff_eq] at hba
        obtain rfl | hc := mem_cons.mp hc
        · exact absurd hba hne
        · obtain ⟨t, ht, hct⟩ := ih hc
          exact ⟨t, mem_cons_of_mem _ ht, hct⟩
      · rw [modifyHead_cons]
        obtain rfl | hc := mem_cons.mp hc
        · exact ⟨c :: s, mem_cons_self, mem_cons_self⟩
        · obtain ⟨t, ht, hct⟩ := ih hc
          obtain rfl | ht := mem_cons.mp ht
          · exact ⟨b :: t, mem_cons_self, mem_cons_of_mem _ hct⟩
          · exact ⟨t, mem_cons_of_mem _ ht, hct⟩

/-- Every element has a value when the list has one. -/
theorem isSome_of_mapM {α β : Type} {f : α → Option β} {l : List α} {bs : List β}
    (h : l.mapM f = some bs) {a : α} (ha : a ∈ l) :
  (f a).isSome
  := by
  induction l generalizing bs with
  | nil => cases ha
  | cons b l ih =>
      rw [mapM_cons] at h
      obtain ⟨c, hb, h⟩ := Option.bind_eq_some_iff.mp h
      obtain ⟨cs, hl, -⟩ := Option.bind_eq_some_iff.mp h
      obtain rfl | ha := mem_cons.mp ha
      · rw [hb]
        rfl
      · exact ih hl ha
end List

import Mathlib.Data.List.Basic

/-!
# Matches in a list

The matches that a global search finds in a list, from left to right, none inside another, and the
elements between them.
-/

namespace Matches

variable {α β : Type}

/-- The elements of a list and the matches in it; the first `skip` elements belong to the last
match.  A matcher sees what is before its match, the last element first, and gives the length of
the match and what it found. -/
def scan (matcher : List β → List β → Option (Nat × α)) :
    Nat → List β → List β → List (β ⊕ List β × α)
  | _, _, [] => []
  | skip + 1, before, b :: list => scan matcher skip (b :: before) list
  | 0, before, b :: list =>
      match matcher before (b :: list) with
      | some (len, found) =>
          .inr ((b :: list).take len, found) :: scan matcher (len - 1) (b :: before) list
      | none => .inl b :: scan matcher 0 (b :: before) list

variable {matcher : List β → List β → Option (Nat × α)}

theorem scan_skip (skip : Nat) (before list : List β) :
  ∃ before', scan matcher skip before list = scan matcher 0 before' (list.drop skip)
  := by
  induction skip generalizing before list with
  | zero => exact ⟨before, rfl⟩
  | succ skip ih =>
      cases list with
      | nil => exact ⟨before, rfl⟩
      | cons b list => exact ih (b :: before) list

theorem scan_cons_none {before list : List β} {b : β} (h : matcher before (b :: list) = none) :
  scan matcher 0 before (b :: list) = .inl b :: scan matcher 0 (b :: before) list
  := by simp only [scan, h]

/-- After a match the search goes on behind it. -/
theorem scan_of_match {before list : List β} {len : Nat} {found : α}
    (h : matcher before list = some (len, found)) (hpos : 0 < len) (hlist : list ≠ []) :
  ∃ before', scan matcher 0 before list =
    .inr (list.take len, found) :: scan matcher 0 before' (list.drop len)
  := by
  cases list with
  | nil => exact absurd rfl hlist
  | cons b list =>
      obtain ⟨len, rfl⟩ := Nat.exists_eq_add_of_le' hpos
      obtain ⟨before', hrest⟩ := @scan_skip _ _ matcher len (b :: before) list
      refine ⟨before', ?_⟩
      simp only [scan, h, Nat.add_sub_cancel, hrest, List.drop_succ_cons]

/-- The elements between matches are elements of the list. -/
theorem mem_of_inl_mem_scan {skip : Nat} {before list : List β} {b : β}
    (h : .inl b ∈ scan matcher skip before list) :
  b ∈ list
  := by
  induction list generalizing skip before with
  | nil => cases skip <;> cases h
  | cons c list ih =>
      cases skip with
      | succ skip => exact List.mem_cons_of_mem c (ih h)
      | zero =>
          cases hmatch : matcher before (c :: list) with
          | none =>
              rw [scan_cons_none hmatch, List.mem_cons] at h
              obtain h | h := h
              · cases h
                exact List.mem_cons_self
              · exact List.mem_cons_of_mem c (ih h)
          | some found =>
              simp only [scan, hmatch, List.mem_cons] at h
              obtain h | h := h
              · cases h
              · exact List.mem_cons_of_mem c (ih h)

/-- The list with the same elements in place of every match. -/
def replace (matcher : List β → List β → Option (Nat × α)) (replacement list : List β) : List β :=
  (scan matcher 0 [] list).flatMap (fun piece => match piece with
    | .inl b => [b]
    | .inr _ => replacement)

theorem mem_replace {replacement list : List β} {b : β} (h : b ∈ replace matcher replacement list) :
  b ∈ list ∨ b ∈ replacement
  := by
  obtain ⟨piece, hpiece, hb⟩ := List.mem_flatMap.mp h
  cases piece with
  | inl c =>
      rw [List.mem_singleton.mp hb]
      exact .inl (mem_of_inl_mem_scan hpiece)
  | inr part => exact .inr hb

/-- The part of the list that a piece is. -/
def original : β ⊕ List β × α → List β
  | .inl b => [b]
  | .inr (part, _) => part

/-- The pieces make up the list, and every match is one of the matcher. -/
theorem scan_spec {P : List β → α → Prop}
    (hmatch : ∀ before list len found, matcher before list = some (len, found) →
      0 < len ∧ P (list.take len) found) (before list : List β) :
  (scan matcher 0 before list).flatMap original = list ∧
    ∀ part found, .inr (part, found) ∈ scan matcher 0 before list → P part found
  := by
  induction hlength : list.length using Nat.strongRecOn generalizing before list with
  | ind length ih =>
      subst hlength
      cases list with
      | nil => simp [scan]
      | cons b list =>
          cases hfound : matcher before (b :: list) with
          | none =>
              rw [scan_cons_none hfound]
              obtain ⟨hlist, hparts⟩ := ih list.length (by simp) (b :: before) list rfl
              refine ⟨by simp [original, hlist], ?_⟩
              intro part found hmem
              exact hparts part found (by simpa using hmem)
          | some m =>
              obtain ⟨len, found⟩ := m
              obtain ⟨hpos, hpart⟩ := hmatch _ _ _ _ hfound
              obtain ⟨before', hscan⟩ := scan_of_match hfound hpos (List.cons_ne_nil b list)
              rw [hscan]
              obtain ⟨hlist, hparts⟩ := ih ((b :: list).drop len).length (by simp; omega) before'
                ((b :: list).drop len) rfl
              refine ⟨?_, ?_⟩
              · rw [List.flatMap_cons, hlist, original, List.take_append_drop]
              · intro part' found' hmem
                obtain hmem | hmem := List.mem_cons.mp hmem
                · cases hmem
                  exact hpart
                · exact hparts part' found' hmem

end Matches

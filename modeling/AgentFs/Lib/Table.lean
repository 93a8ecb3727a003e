import Mathlib.Data.List.Basic
import Mathlib.Data.List.Nodup

/-!
# Tables

A table is a list of rows.  `Keyed key` says that no two rows agree on `key`, as a primary
key or a UNIQUE index has it, and is kept by deleting rows, by updating them without
touching the key, and by inserting a row with a new key.
-/

namespace Tabular

variable {ρ κ : Type}

/-- No two rows have the same key. -/
def Keyed (key : ρ → κ) (rows : List ρ) : Prop :=
  (rows.map key).Nodup

instance [DecidableEq κ] (key : ρ → κ) (rows : List ρ) : Decidable (Keyed key rows) :=
  inferInstanceAs (Decidable (List.Nodup _))

variable {key : ρ → κ} {rows : List ρ}

theorem keyed_nil :
  Keyed key []
  := List.nodup_nil

/-- A row of a keyed table is determined by its key. -/
theorem Keyed.eq_of_mem (h : Keyed key rows) {r s : ρ} (hr : r ∈ rows) (hs : s ∈ rows)
    (hkey : key r = key s) :
  r = s
  := List.inj_on_of_nodup_map h hr hs hkey

/-- Looking a row up by its key finds it. -/
theorem Keyed.find?_eq [DecidableEq κ] (h : Keyed key rows) {r : ρ} (hr : r ∈ rows) {k : κ}
    (hkey : key r = k) :
  rows.find? (fun s => key s = k) = some r
  := by
  cases hfind : rows.find? (fun s => key s = k) with
  | none =>
      have hnone := List.find?_eq_none.mp hfind r hr
      simp [hkey] at hnone
  | some s =>
      have hs := List.find?_some hfind
      simp only [decide_eq_true_eq] at hs
      rw [h.eq_of_mem (List.mem_of_find?_eq_some hfind) hr (hs.trans hkey.symm)]

theorem Keyed.filter (h : Keyed key rows) (p : ρ → Bool) :
  Keyed key (rows.filter p)
  := List.Nodup.sublist (List.filter_sublist.map key) h

/-- Updating rows without touching their keys. -/
theorem Keyed.map (h : Keyed key rows) {f : ρ → ρ} (hf : ∀ r ∈ rows, key (f r) = key r) :
  Keyed key (rows.map f)
  := by
  unfold Keyed
  rw [List.map_map]
  have hkeys : rows.map (key ∘ f) = rows.map key := List.map_congr_left hf
  rw [hkeys]
  exact h

/-- Inserting a row with a new key. -/
theorem Keyed.concat (h : Keyed key rows) {r : ρ} (hr : ∀ s ∈ rows, key s ≠ key r) :
  Keyed key (rows ++ [r])
  := by
  unfold Keyed
  rw [List.map_append, List.map_singleton]
  apply List.Nodup.append h (List.nodup_singleton _)
  rw [List.disjoint_singleton]
  intro hmem
  obtain ⟨s, hs, heq⟩ := List.mem_map.mp hmem
  exact hr s hs heq

/-- At most one row of a keyed table has a given key. -/
theorem Keyed.length_filter_le_one (h : Keyed key rows) {p : ρ → Bool} {k : κ}
    (hp : ∀ r ∈ rows, p r = true → key r = k) :
  (rows.filter p).length ≤ 1
  := by
  have hkeys : (rows.filter p).map key = List.replicate (rows.filter p).length k := by
    rw [List.eq_replicate_iff]
    refine ⟨List.length_map _, ?_⟩
    intro k' hk'
    obtain ⟨r, hr, rfl⟩ := List.mem_map.mp hk'
    exact hp r (List.mem_of_mem_filter hr) (List.of_mem_filter hr)
  have hnodup := h.filter p
  unfold Keyed at hnodup
  rw [hkeys] at hnodup
  exact List.nodup_replicate.mp hnodup

/-! ### Replacing a row -/

/-- Put a row in the place of the one with its key. -/
def replaceRow [DecidableEq κ] (key : ρ → κ) (r' : ρ) (rows : List ρ) : List ρ :=
  rows.map (fun r => if key r = key r' then r' else r)

section

variable [DecidableEq κ] {r r' : ρ}

theorem mem_replaceRow (hr : r ∈ rows) (hkey : key r' = key r) {s : ρ} :
  s ∈ replaceRow key r' rows ↔ s = r' ∨ s ∈ rows ∧ key s ≠ key r
  := by
  unfold replaceRow
  rw [List.mem_map]
  constructor
  · rintro ⟨t, ht, rfl⟩
    split
    · exact .inl rfl
    · rename_i hne
      exact .inr ⟨ht, hkey ▸ hne⟩
  · rintro (rfl | ⟨hs, hne⟩)
    · exact ⟨r, hr, if_pos hkey.symm⟩
    · exact ⟨s, hs, if_neg (hkey ▸ hne)⟩

theorem map_key_replaceRow (rows : List ρ) (r' : ρ) :
  (replaceRow key r' rows).map key = rows.map key
  := by
  unfold replaceRow
  rw [List.map_map]
  apply List.map_congr_left
  intro s _
  show key (if key s = key r' then r' else s) = key s
  split
  · rename_i heq
    exact heq.symm
  · rfl

theorem Keyed.replaceRow (h : Keyed key rows) (r' : ρ) :
  Keyed key (replaceRow key r' rows)
  := by
  unfold Keyed
  rw [map_key_replaceRow]
  exact h

/-- The later replacement counts. -/
theorem replaceRow_replaceRow {r'' : ρ} (hkey : key r'' = key r') (rows : List ρ) :
  replaceRow key r'' (replaceRow key r' rows) = replaceRow key r'' rows
  := by
  unfold replaceRow
  rw [List.map_map]
  apply List.map_congr_left
  intro s _
  rw [Function.comp_apply, hkey]
  by_cases hs : key s = key r'
  · rw [if_pos hs, if_pos rfl, if_pos hs]
  · rw [if_neg hs, if_neg hs]

/-- Updating the row with a key is putting the new row in its place. -/
theorem Keyed.map_eq_replaceRow (h : Keyed key rows) (hr : r ∈ rows) {f : ρ → ρ}
    (hkey : key (f r) = key r) :
  rows.map (fun s => if key s = key r then f s else s) = Tabular.replaceRow key (f r) rows
  := by
  apply List.map_congr_left
  intro s hs
  rw [hkey]
  split
  · rename_i heq
    rw [h.eq_of_mem hs hr heq]
  · rfl

/-- Replacing a row adds at most one row with a property. -/
theorem Keyed.length_filter_replaceRow_le (h : Keyed key rows) (r' : ρ) (p : ρ → Bool) :
  ((Tabular.replaceRow key r' rows).filter p).length ≤ (rows.filter p).length + 1
  := by
  induction rows with
  | nil => exact Nat.zero_le _
  | cons s rows ih =>
      obtain ⟨hs, hrows⟩ := List.nodup_cons.mp h
      unfold Tabular.replaceRow
      rw [List.map_cons]
      split
      · rename_i heq
        have hsame : rows.map (fun r => if key r = key r' then r' else r) = rows := by
          conv_rhs => rw [← List.map_id rows]
          apply List.map_congr_left
          intro t ht
          apply if_neg
          intro hkey
          apply hs
          rw [heq, ← hkey]
          apply List.mem_map_of_mem ht
        rw [hsame, List.filter_cons, List.filter_cons]
        split
        · split
          · exact Nat.le_succ _
          · exact Nat.le_refl _
        · split
          · rw [List.length_cons]
            omega
          · exact Nat.le_succ _
      · have ih := ih hrows
        unfold Tabular.replaceRow at ih
        rw [List.filter_cons, List.filter_cons]
        split
        · rw [List.length_cons, List.length_cons]
          omega
        · exact ih

/-- Replacing a row by one that has the property only if the row had it. -/
theorem Keyed.length_filter_replaceRow_le_of_imp (h : Keyed key rows) (hr : r ∈ rows)
    (hkey : key r' = key r) {p : ρ → Bool} (hp : p r' = true → p r = true) :
  ((Tabular.replaceRow key r' rows).filter p).length ≤ (rows.filter p).length
  := by
  unfold Tabular.replaceRow
  rw [List.filter_map, List.length_map, ← List.countP_eq_length_filter,
    ← List.countP_eq_length_filter]
  apply List.countP_mono_left
  intro s hs hps
  dsimp only [Function.comp_apply] at hps
  split at hps
  · rename_i heq
    rw [h.eq_of_mem hs hr (heq.trans hkey)]
    exact hp hps
  · exact hps

end

end Tabular

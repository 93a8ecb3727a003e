import AgentFs.Lib.Update

/-!
# Paired tables

Two tables are paired when each row of one has exactly one row with the same key in the
other, as when a table is split in two and no foreign key connects the parts.  Deleting the
rows with the same keys from both, inserting a row with a new key in both, and updating rows
without touching their keys keep the pairing.
-/

namespace Tabular

variable {ρ σ κ : Type} {key : ρ → κ} {key' : σ → κ} {rows : List ρ} {rows' : List σ}

/-- The rows of two tables correspond one to one by their keys. -/
structure Paired (key : ρ → κ) (key' : σ → κ) (rows : List ρ) (rows' : List σ) : Prop where
  left : Keyed key rows
  right : Keyed key' rows'
  same : ∀ k, k ∈ rows.map key ↔ k ∈ rows'.map key'

theorem Paired.nil :
  Paired key key' [] []
  := ⟨keyed_nil, keyed_nil, fun _ => Iff.rfl⟩

/-- Each row of the first table has exactly one row of the second. -/
theorem Paired.existsUnique (h : Paired key key' rows rows') {r : ρ} (hr : r ∈ rows) :
  ∃! s, s ∈ rows' ∧ key' s = key r
  := by
  obtain ⟨s, hs, hkey⟩ := List.mem_map.mp ((h.same _).mp (List.mem_map_of_mem hr))
  refine ⟨s, ⟨hs, hkey⟩, ?_⟩
  rintro s' ⟨hs', hkey'⟩
  exact h.right.eq_of_mem hs' hs (hkey'.trans hkey.symm)

theorem Paired.symm (h : Paired key key' rows rows') :
  Paired key' key rows' rows
  := ⟨h.right, h.left, fun k => (h.same k).symm⟩

/-- Delete the rows with `p`, and the rows of the other table with their keys. -/
theorem Paired.delete [DecidableEq κ] (h : Paired key key' rows rows') (p : ρ → Bool) :
  Paired key key' (rows.filter (fun r => !p r))
    (rows'.filter (fun s => key' s ∉ (rows.filter p).map key))
  := by
  refine ⟨h.left.filter _, h.right.filter _, ?_⟩
  intro k
  simp only [List.mem_map, List.mem_filter, Bool.not_eq_true', decide_eq_true_eq]
  constructor
  · rintro ⟨r, ⟨hr, hp⟩, rfl⟩
    obtain ⟨s, hs, hkey⟩ := List.mem_map.mp ((h.same _).mp (List.mem_map_of_mem hr))
    refine ⟨s, ⟨hs, ?_⟩, hkey⟩
    rintro ⟨r', ⟨hr', hp'⟩, hkey'⟩
    rw [h.left.eq_of_mem hr' hr (hkey'.trans hkey), hp] at hp'
    cases hp'
  · rintro ⟨s, ⟨hs, hdel⟩, rfl⟩
    obtain ⟨r, hr, hkey⟩ := List.mem_map.mp ((h.same _).mpr (List.mem_map_of_mem hs))
    refine ⟨r, ⟨hr, ?_⟩, hkey⟩
    cases hp : p r with
    | false => rfl
    | true => exact absurd ⟨r, ⟨hr, hp⟩, hkey⟩ hdel

/-- Insert a row with a new key in both tables. -/
theorem Paired.insert (h : Paired key key' rows rows') {r : ρ} {s : σ}
    (hnew : ∀ r' ∈ rows, key r' ≠ key r) (hkey : key' s = key r) :
  Paired key key' (rows ++ [r]) (rows' ++ [s])
  := by
  refine ⟨h.left.concat hnew, h.right.concat ?_, ?_⟩
  · intro s' hs' hsame
    obtain ⟨r', hr', hkey'⟩ := List.mem_map.mp ((h.same _).mpr (List.mem_map_of_mem hs'))
    exact hnew r' hr' (hkey'.trans (hsame.trans hkey))
  · intro k
    rw [List.map_append, List.map_append, List.mem_append, List.mem_append, h.same k,
      List.map_singleton, List.map_singleton, hkey]

/-- Update rows without touching their keys. -/
theorem Paired.update (h : Paired key key' rows rows') {p : ρ → Prop} [DecidablePred p]
    {f : ρ → ρ} (hf : ∀ r, key (f r) = key r) :
  Paired key key' (Tabular.update p f rows) rows'
  := by
  refine ⟨h.left.update hf, h.right, ?_⟩
  intro k
  rw [map_update hf]
  exact h.same k

end Tabular

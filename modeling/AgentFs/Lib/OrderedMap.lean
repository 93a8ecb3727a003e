import AgentFs.Lib.Table

/-!
# Maps in insertion order

A map as a list of its entries, the oldest first.  Setting a key that is present keeps its
place, a new key is put last, and pruning deletes entries from the oldest one on.
-/

open Tabular

/-- A map whose entries are listed in insertion order. -/
structure OrderedMap (κ ν : Type) where
  entries : List (κ × ν)
  keyed : Keyed Prod.fst entries
  deriving DecidableEq

namespace OrderedMap

variable {κ ν : Type}

def empty : OrderedMap κ ν :=
  ⟨[], keyed_nil⟩

def size (m : OrderedMap κ ν) : Nat :=
  m.entries.length

/-- Delete the entries without `p`. -/
def keep (p : κ × ν → Bool) (m : OrderedMap κ ν) : OrderedMap κ ν :=
  ⟨m.entries.filter p, m.keyed.filter p⟩

/-- Delete entries, the oldest first, until `stop` holds of the size and the oldest entry. -/
def pruneEntries (stop : Nat → κ × ν → Bool) : List (κ × ν) → List (κ × ν)
  | [] => []
  | e :: rest => if stop (rest.length + 1) e then e :: rest else pruneEntries stop rest

theorem pruneEntries_sublist (stop : Nat → κ × ν → Bool) (entries : List (κ × ν)) :
  (pruneEntries stop entries).Sublist entries
  := by
  induction entries with
  | nil => exact List.Sublist.refl []
  | cons e rest ih =>
      unfold pruneEntries
      split
      · apply List.Sublist.refl
      · apply List.Sublist.cons e ih

def prune (stop : Nat → κ × ν → Bool) (m : OrderedMap κ ν) : OrderedMap κ ν :=
  ⟨pruneEntries stop m.entries,
    List.Nodup.sublist ((pruneEntries_sublist stop m.entries).map Prod.fst) m.keyed⟩

/-- When pruning stops at no size above `n`, at most `n` entries are left. -/
theorem size_prune_le {stop : Nat → κ × ν → Bool} {n : Nat}
    (hstop : ∀ size e, stop size e = true → size ≤ n) (m : OrderedMap κ ν) :
  (m.prune stop).size ≤ n
  := by
  unfold prune size
  dsimp only
  induction m.entries with
  | nil => apply Nat.zero_le
  | cons e rest ih =>
      unfold pruneEntries
      split
      · rename_i h
        exact hstop _ e h
      · exact ih

theorem mem_of_mem_prune {stop : Nat → κ × ν → Bool} {m : OrderedMap κ ν} {e : κ × ν}
    (h : e ∈ (m.prune stop).entries) :
  e ∈ m.entries
  := (pruneEntries_sublist stop m.entries).subset h

@[simp]
theorem mem_keep {p : κ × ν → Bool} {m : OrderedMap κ ν} {e : κ × ν} :
  e ∈ (m.keep p).entries ↔ e ∈ m.entries ∧ p e = true
  := List.mem_filter

theorem size_keep_le (p : κ × ν → Bool) (m : OrderedMap κ ν) :
  (m.keep p).size ≤ m.size
  := List.length_filter_le p m.entries

/-- An entry of a map is determined by its key. -/
theorem eq_of_mem {m : OrderedMap κ ν} {k : κ} {v w : ν} (hv : (k, v) ∈ m.entries)
    (hw : (k, w) ∈ m.entries) :
  v = w
  := congrArg Prod.snd (m.keyed.eq_of_mem hv hw rfl)

/-- Replace the values, and delete the entries that are left without one. -/
def filterMap (f : ν → Option ν) (m : OrderedMap κ ν) : OrderedMap κ ν :=
  ⟨m.entries.filterMap (fun e => (f e.2).map (Prod.mk e.1)), by
    have hkeys : ((m.entries.filterMap (fun e => (f e.2).map (Prod.mk e.1))).map Prod.fst).Sublist
        (m.entries.map Prod.fst) := by
      induction m.entries with
      | nil => exact List.Sublist.refl []
      | cons e rest ih =>
          cases hf : f e.2 with
          | none => simpa [hf] using ih.cons e.1
          | some w => simpa [hf] using ih.cons_cons e.1
    exact List.Nodup.sublist hkeys m.keyed⟩

theorem mem_filterMap {f : ν → Option ν} {m : OrderedMap κ ν} {k : κ} {w : ν} :
  (k, w) ∈ (m.filterMap f).entries ↔ ∃ v, (k, v) ∈ m.entries ∧ f v = some w
  := by
  unfold filterMap
  simp

variable [DecidableEq κ]

def get (m : OrderedMap κ ν) (k : κ) : Option ν :=
  (m.entries.find? (fun e => e.1 = k)).map Prod.snd

def delete (k : κ) (m : OrderedMap κ ν) : OrderedMap κ ν :=
  m.keep (fun e => e.1 ≠ k)

theorem get_eq_some_iff {m : OrderedMap κ ν} {k : κ} {v : ν} :
  m.get k = some v ↔ (k, v) ∈ m.entries
  := by
  constructor
  · intro h
    obtain ⟨⟨k', w⟩, hfind, rfl⟩ := Option.map_eq_some_iff.mp h
    have hkey := List.find?_some hfind
    simp only [decide_eq_true_eq] at hkey
    subst hkey
    exact List.mem_of_find?_eq_some hfind
  · intro h
    unfold get
    rw [m.keyed.find?_eq h rfl]
    rfl

theorem get_eq_none_iff {m : OrderedMap κ ν} {k : κ} :
  m.get k = none ↔ ∀ v, (k, v) ∉ m.entries
  := by
  rw [Option.eq_none_iff_forall_ne_some]
  constructor
  · intro h v hv
    exact h v (get_eq_some_iff.mpr hv)
  · intro h v hv
    exact h v (get_eq_some_iff.mp hv)

@[simp]
theorem mem_delete {m : OrderedMap κ ν} {k : κ} {e : κ × ν} :
  e ∈ (m.delete k).entries ↔ e ∈ m.entries ∧ e.1 ≠ k
  := by
  unfold delete
  simp

theorem size_delete_le (k : κ) (m : OrderedMap κ ν) :
  (m.delete k).size ≤ m.size
  := size_keep_le _ m

/-- The value of a key that is present is replaced in its place; a new key is put last. -/
def set (k : κ) (v : ν) (m : OrderedMap κ ν) : OrderedMap κ ν :=
  if h : ∀ e ∈ m.entries, e.1 ≠ k then ⟨m.entries ++ [(k, v)], m.keyed.concat h⟩
  else ⟨m.entries.map (fun e => if e.1 = k then (k, v) else e), m.keyed.map (by
    intro e _
    by_cases he : e.1 = k
    · rw [if_pos he, he]
    · rw [if_neg he])⟩

@[simp]
theorem mem_set {m : OrderedMap κ ν} {k : κ} {v : ν} {e : κ × ν} :
  e ∈ (m.set k v).entries ↔ e = (k, v) ∨ e ∈ m.entries ∧ e.1 ≠ k
  := by
  unfold set
  split
  · rename_i hnew
    dsimp only
    rw [List.mem_append, List.mem_singleton, or_comm]
    constructor
    · rintro (rfl | he)
      · exact .inl rfl
      · exact .inr ⟨he, hnew e he⟩
    · rintro (rfl | ⟨he, -⟩)
      · exact .inl rfl
      · exact .inr he
  · rename_i hold
    obtain ⟨e', he', hkey⟩ : ∃ e' ∈ m.entries, e'.1 = k := by simpa using hold
    dsimp only
    rw [List.mem_map]
    constructor
    · rintro ⟨e'', he'', rfl⟩
      split
      · exact .inl rfl
      · rename_i hne
        exact .inr ⟨he'', hne⟩
    · rintro (rfl | ⟨he, hne⟩)
      · exact ⟨e', he', if_pos hkey⟩
      · exact ⟨e, he, if_neg hne⟩

theorem size_set_le (k : κ) (v : ν) (m : OrderedMap κ ν) :
  (m.set k v).size ≤ m.size + 1
  := by
  unfold set size
  split
  · simp
  · simp

/-- Moving a key that is present to the end does not make the map larger. -/
theorem size_set_delete_le {m : OrderedMap κ ν} {k : κ} {v : ν} (h : (k, v) ∈ m.entries) (w : ν) :
  ((m.delete k).set k w).size ≤ m.size
  := by
  have hlt : (m.delete k).size < m.size := by
    apply List.length_filter_lt_length_iff_exists.mpr
    exact ⟨(k, v), h, by simp⟩
  exact Nat.le_trans (size_set_le k w (m.delete k)) hlt

theorem get_set (m : OrderedMap κ ν) (k k' : κ) (v : ν) :
  (m.set k v).get k' = if k' = k then some v else m.get k'
  := by
  ext w
  rw [get_eq_some_iff, mem_set, Prod.mk.injEq]
  split
  · rename_i hk
    simp [hk, eq_comm]
  · rename_i hk
    rw [get_eq_some_iff]
    simp [hk]

theorem get_delete (m : OrderedMap κ ν) (k k' : κ) :
  (m.delete k).get k' = if k' = k then none else m.get k'
  := by
  ext w
  rw [get_eq_some_iff, mem_delete]
  split
  · rename_i hk
    simp [hk]
  · rename_i hk
    rw [get_eq_some_iff]
    simp [hk]

theorem get_filterMap (f : ν → Option ν) (m : OrderedMap κ ν) (k : κ) :
  (m.filterMap f).get k = (m.get k).bind f
  := by
  ext w
  rw [get_eq_some_iff, mem_filterMap, Option.bind_eq_some_iff]
  simp only [get_eq_some_iff]

@[simp]
theorem get_empty (k : κ) :
  (empty : OrderedMap κ ν).get k = none
  := rfl

end OrderedMap

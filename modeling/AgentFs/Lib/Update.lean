import AgentFs.Lib.Table
import Mathlib.Data.List.Perm.Basic

/-!
# Updates under a unique index

`update p f` is the statement that changes every row with `p` by `f`, and `checked` the
UNIQUE index it has to respect.  A sequence of updates of single rows respects the index at
every step when each row moves to a slot that no row holds that is still to be moved: this
is how a table is renumbered in place.
-/

namespace Tabular

variable {ρ ι κ ε : Type}

/-- Change the rows with `p` by `f`. -/
def update (p : ρ → Prop) [DecidablePred p] (f : ρ → ρ) (rows : List ρ) : List ρ :=
  rows.map (fun r => if p r then f r else r)

/-- The rows, unless two of them hold the same slot. -/
def checked [DecidableEq κ] (e : ε) (slot : ρ → κ) (rows : List ρ) : Except ε (List ρ) :=
  if Keyed slot rows then .ok rows else .error e

theorem checked_of_keyed [DecidableEq κ] {e : ε} {slot : ρ → κ} {rows : List ρ}
    (h : Keyed slot rows) :
  checked e slot rows = .ok rows
  := if_pos h

@[simp]
theorem mem_update {p : ρ → Prop} [DecidablePred p] {f : ρ → ρ} {rows : List ρ} {r : ρ} :
  r ∈ update p f rows ↔ (∃ s ∈ rows, p s ∧ f s = r) ∨ (r ∈ rows ∧ ¬ p r)
  := by
  unfold update
  rw [List.mem_map]
  constructor
  · rintro ⟨s, hs, rfl⟩
    by_cases hp : p s
    · left
      use s, hs, hp
      rw [if_pos hp]
    · right
      rw [if_neg hp]
      exact ⟨hs, hp⟩
  · rintro (⟨s, hs, hp, rfl⟩ | ⟨hr, hp⟩)
    · use s, hs
      rw [if_pos hp]
    · use r, hr
      rw [if_neg hp]

/-- An update that keeps a key of every row keeps the keys. -/
theorem map_update {p : ρ → Prop} [DecidablePred p] {f : ρ → ρ} {rows : List ρ} {g : ρ → κ}
    (h : ∀ r, g (f r) = g r) :
  (update p f rows).map g = rows.map g
  := by
  unfold update
  rw [List.map_map]
  apply List.map_congr_left
  intro r _
  dsimp only [Function.comp]
  split
  · exact h r
  · rfl

theorem Keyed.update {key : ρ → κ} {rows : List ρ} (h : Keyed key rows) {p : ρ → Prop}
    [DecidablePred p] {f : ρ → ρ} (hf : ∀ r, key (f r) = key r) :
  Keyed key (update p f rows)
  := by
  unfold Keyed
  rw [map_update hf]
  exact h

/-- Rows with different keys keep different keys when the changed ones move to keys that no
unchanged row holds. -/
theorem Keyed.update_of_free {key : ρ → κ} {rows : List ρ} (h : Keyed key rows) {p : ρ → Prop}
    [DecidablePred p] {f : ρ → ρ}
    (hinj : ∀ r ∈ rows, ∀ s ∈ rows, p r → p s → key (f r) = key (f s) → key r = key s)
    (hfree : ∀ r ∈ rows, ∀ s ∈ rows, p r → ¬ p s → key (f r) ≠ key s) :
  Keyed key (Tabular.update p f rows)
  := by
  unfold Keyed Tabular.update at *
  rw [List.map_map]
  rw [List.nodup_map_iff_inj_on (List.Nodup.of_map _ h)]
  intro r hr s hs hkey
  simp only [Function.comp] at hkey
  apply List.inj_on_of_nodup_map h hr hs
  by_cases hpr : p r <;> by_cases hps : p s <;> simp only [hpr, hps, if_true, if_false] at hkey
  · exact hinj r hr s hs hpr hps hkey
  · exact absurd hkey (hfree r hr s hs hpr hps)
  · exact absurd hkey.symm (hfree s hs r hr hps hpr)
  · exact hkey

/-! ### Sequences of updates of single rows -/

/-- An update of the row with one identity. -/
structure RowUpdate (ρ ι : Type) where
  id : ι
  change : ρ → ρ

variable [DecidableEq ι]

/-- The table after one update. -/
def RowUpdate.apply (ident : ρ → ι) (u : RowUpdate ρ ι) (rows : List ρ) : List ρ :=
  update (fun r => ident r = u.id) u.change rows

/-- Run updates of single rows one after the other, each under the index. -/
def updateRows [DecidableEq κ] (e : ε) (ident : ρ → ι) (slot : ρ → κ) :
    List (RowUpdate ρ ι) → List ρ → Except ε (List ρ)
  | [], rows => .ok rows
  | u :: us, rows => do
      let rows ← checked e slot (u.apply ident rows)
      updateRows e ident slot us rows

/-- What a sequence of updates makes of one row. -/
def settled (ident : ρ → ι) (us : List (RowUpdate ρ ι)) (r : ρ) : ρ :=
  match us.find? (fun u => u.id = ident r) with
  | some u => u.change r
  | none => r

/-- The updates find every slot free: a row that holds the slot another row moves to is
moved itself, and not later. -/
structure Clears (ident : ρ → ι) (slot : ρ → κ) (us : List (RowUpdate ρ ι)) (rows : List ρ) :
    Prop where
  nodup : (us.map RowUpdate.id).Nodup
  ident_change : ∀ u ∈ us, ∀ r, ident (u.change r) = ident r
  /-- The slot a row moves to is held by no row that is moved later or never. -/
  free : ∀ (k : Nat) (u : RowUpdate ρ ι), us[k]? = some u → ∀ r ∈ rows, ident r = u.id →
    ∀ s ∈ rows, slot s = slot (u.change r) →
      ∃ j ≤ k, ∃ v : RowUpdate ρ ι, us[j]? = some v ∧ ident s = v.id
  /-- No two rows move to one slot. -/
  distinct : ∀ (j k : Nat) (u v : RowUpdate ρ ι), j < k → us[j]? = some u → us[k]? = some v →
    ∀ r ∈ rows, ∀ s ∈ rows, ident r = u.id → ident s = v.id →
      slot (u.change r) ≠ slot (v.change s)

variable {ident : ρ → ι} {slot : ρ → κ}

theorem settled_nil (r : ρ) :
  settled ident [] r = r
  := rfl

/-- A row that one of the updates is about. -/
theorem settled_of_mem {us : List (RowUpdate ρ ι)} (hnodup : (us.map RowUpdate.id).Nodup)
    {u : RowUpdate ρ ι} (hu : u ∈ us) {r : ρ} (hid : ident r = u.id) :
  settled ident us r = u.change r
  := by
  have hkeyed : Keyed RowUpdate.id us := hnodup
  have hfind : us.find? (fun v => v.id = ident r) = some u := hkeyed.find?_eq hu hid.symm
  unfold settled
  rw [hfind]

/-- A row that none of the updates is about. -/
theorem settled_of_not_mem {us : List (RowUpdate ρ ι)} {r : ρ}
    (h : ident r ∉ us.map RowUpdate.id) :
  settled ident us r = r
  := by
  have hfind : us.find? (fun v => v.id = ident r) = none := by
    rw [List.find?_eq_none]
    intro v hv heq
    apply h
    rw [List.mem_map]
    exact ⟨v, hv, of_decide_eq_true heq⟩
  unfold settled
  rw [hfind]

/-- Updates that keep the identity of a row keep it together. -/
theorem settled_ident {us : List (RowUpdate ρ ι)}
    (h : ∀ u ∈ us, ∀ r, ident (u.change r) = ident r) (r : ρ) :
  ident (settled ident us r) = ident r
  := by
  unfold settled
  split
  · rename_i u hfind
    exact h u (List.mem_of_find?_eq_some hfind) r
  · rfl

/-- The first update of a sequence, and what the others make of its result. -/
theorem settled_cons {u : RowUpdate ρ ι} {us : List (RowUpdate ρ ι)} {r : ρ}
    (hnodup : ((u :: us).map RowUpdate.id).Nodup) (hident : ident (u.change r) = ident r) :
  settled ident (u :: us) r = settled ident us (if ident r = u.id then u.change r else r)
  := by
  by_cases h : ident r = u.id
  · have hrest : ident (u.change r) ∉ us.map RowUpdate.id := by
      rw [hident, h]
      exact (List.nodup_cons.mp hnodup).1
    rw [if_pos h, settled_of_mem hnodup List.mem_cons_self h, settled_of_not_mem hrest]
  · have hne : ¬ u.id = ident r := fun heq => h heq.symm
    rw [if_neg h]
    unfold settled
    simp [hne]

/-- After the first update, the others still find every slot free. -/
theorem Clears.tail {u : RowUpdate ρ ι} {us : List (RowUpdate ρ ι)} {rows : List ρ}
    (h : Clears ident slot (u :: us) rows) :
  Clears ident slot us (u.apply ident rows)
  := by
  have hnodup := List.nodup_cons.mp h.nodup
  have hkeep : ∀ (k : Nat) (v : RowUpdate ρ ι), us[k]? = some v →
      ∀ r ∈ u.apply ident rows, ident r = v.id → r ∈ rows := by
    intro k v hv r hr hid
    rcases mem_update.mp hr with ⟨s, hs, hsu, rfl⟩ | ⟨hr, _⟩
    · exfalso
      apply hnodup.1
      rw [List.mem_map]
      use v, List.mem_of_getElem? hv
      rw [← hid, h.ident_change u List.mem_cons_self, hsu]
    · exact hr
  constructor
  case nodup => exact hnodup.2
  case ident_change =>
    intro v hv
    exact h.ident_change v (List.mem_cons_of_mem _ hv)
  case free =>
    intro k v hv r hr hid s hs hslot
    have hr' := hkeep k v hv r hr hid
    rcases mem_update.mp hs with ⟨t, ht, htu, rfl⟩ | ⟨hs, hsu⟩
    · exact absurd hslot (h.distinct 0 (k + 1) u v k.succ_pos rfl hv t ht r hr' htu hid)
    · obtain ⟨j, hj, w, hw, hsw⟩ := h.free (k + 1) v hv r hr' hid s hs hslot
      cases j with
      | zero =>
          cases hw
          exact absurd hsw hsu
      | succ j => exact ⟨j, Nat.le_of_succ_le_succ hj, w, hw, hsw⟩
  case distinct =>
    intro j k v w hjk hv hw r hr s hs hrv hsw
    exact h.distinct (j + 1) (k + 1) v w (Nat.succ_lt_succ hjk) hv hw r (hkeep j v hv r hr hrv)
      s (hkeep k w hw s hs hsw) hrv hsw

/-- A sequence of updates that finds every slot free breaks the index at no step. -/
theorem updateRows_of_clears [DecidableEq κ] {e : ε} {us : List (RowUpdate ρ ι)} {rows : List ρ}
    (hids : Keyed ident rows) (hslots : Keyed slot rows) (h : Clears ident slot us rows) :
  updateRows e ident slot us rows = .ok (rows.map (settled ident us)) ∧
    Keyed slot (rows.map (settled ident us))
  := by
  induction us generalizing rows with
  | nil =>
      have hmap : rows.map (settled ident []) = rows := by
        rw [List.map_congr_left (fun r _ => settled_nil r)]
        exact List.map_id' rows
      rw [hmap]
      exact ⟨rfl, hslots⟩
  | cons u us ih =>
      have hslots' : Keyed slot (u.apply ident rows) := by
        apply hslots.update_of_free
        · intro r hr s hs hru hsu _
          rw [hids.eq_of_mem hr hs (hru.trans hsu.symm)]
        · intro r hr s hs hru hsu heq
          obtain ⟨j, hj, v, hv, hsv⟩ := h.free 0 u rfl r hr hru s hs heq.symm
          rw [Nat.le_zero.mp hj] at hv
          cases hv
          exact hsu hsv
      have hids' : Keyed ident (u.apply ident rows) :=
        hids.update (h.ident_change u List.mem_cons_self)
      have hrest := ih hids' hslots' h.tail
      have hmap : (u.apply ident rows).map (settled ident us)
          = rows.map (settled ident (u :: us)) := by
        unfold RowUpdate.apply update
        rw [List.map_map]
        apply List.map_congr_left
        intro r _
        exact (settled_cons h.nodup (h.ident_change u List.mem_cons_self r)).symm
      rw [hmap] at hrest
      refine ⟨?_, hrest.2⟩
      unfold updateRows
      rw [checked_of_keyed hslots']
      exact hrest.1

end Tabular

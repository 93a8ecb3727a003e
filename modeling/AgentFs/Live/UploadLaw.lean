import Mathlib.Algebra.GroupWithZero.Nat
import AgentFs.Live.Uploads

/-!
# The law of uploads

Whatever is asked of the store, three uploads run at most and no item waits while fewer do, a file
is replaced only after the user was asked, and every upload is counted in one toast.
-/

namespace AgentFs

open Tabular

namespace Uploads

/-! ### Changes of one item -/

variable {s : Uploads}

theorem mem_items_update {id : Nat} (patch : UploadItem → UploadItem)
    (hkeyed : Keyed UploadItem.id s.items) {item : UploadItem} (hitem : item ∈ s.items)
    (hid : item.id = id) (other : UploadItem) :
  other ∈ (s.update id patch).items ↔ other = patch item ∨ other ∈ s.items ∧ other.id ≠ id
  := by
  unfold update
  dsimp only
  rw [mem_update]
  constructor
  · rintro (⟨found, hfound, hsame, rfl⟩ | ⟨hmem, hne⟩)
    · rw [hkeyed.eq_of_mem hfound hitem (hsame.trans hid.symm)]
      exact .inl rfl
    · exact .inr ⟨hmem, hne⟩
  · rintro (rfl | ⟨hmem, hne⟩)
    · exact .inl ⟨item, hitem, hid, rfl⟩
    · exact .inr ⟨hmem, hne⟩

theorem find?_of_mem (hkeyed : Keyed UploadItem.id s.items) {item : UploadItem}
    (hitem : item ∈ s.items) :
  s.find? item.id = some item
  := hkeyed.find?_eq hitem rfl

theorem mem_of_find? {id : Nat} {item : UploadItem} (h : s.find? id = some item) :
  item ∈ s.items ∧ item.id = id
  := by
  have hid := List.find?_some h
  rw [decide_eq_true_iff] at hid
  exact ⟨List.mem_of_find?_eq_some h, hid⟩

/-! ### The log -/

/-- The answers that say that a file was uploaded. -/
def uploaded : UploadLog → Nat
  | .answer _ (.ok _) => 1
  | _ => 0

/-- The answers that say that an upload failed. -/
def failures : UploadLog → Nat
  | .answer _ .failed => 1
  | _ => 0

/-- The uploads that a toast tells. -/
def toldDone : UploadLog → Nat
  | .toast done _ => done
  | _ => 0

def toldFailed : UploadLog → Nat
  | .toast _ failed => failed
  | _ => 0

def total (count : UploadLog → Nat) (log : List UploadLog) : Nat :=
  (log.map count).sum

@[simp]
theorem total_concat (count : UploadLog → Nat) (log : List UploadLog) (entry : UploadLog) :
  total count (log ++ [entry]) = total count log + count entry
  := by simp [total]

/-- A request may replace a file only after one of the item met a conflict. -/
def AskedFirst (log : List UploadLog) : Prop :=
  ∀ before id after, log = before ++ .request id false :: after →
    UploadLog.answer id .conflict ∈ before

theorem AskedFirst.concat {log : List UploadLog} (h : AskedFirst log) {entry : UploadLog}
    (hentry : ∀ id, entry = .request id false → UploadLog.answer id .conflict ∈ log) :
  AskedFirst (log ++ [entry])
  := by
  intro before id after heq
  obtain rfl | ⟨rest, last, rfl⟩ := List.eq_nil_or_concat after
  · obtain ⟨rfl, hlast⟩ := List.append_inj' heq rfl
    rw [List.singleton_inj] at hlast
    exact hentry id hlast
  · rw [List.concat_eq_append, ← List.cons_append, ← List.append_assoc] at heq
    exact h before id rest (List.append_inj' heq rfl).1

/-! ### The invariant -/

/-- The invariant that `pump` keeps. -/
structure Sound (s : Uploads) : Prop where
  keyed : Keyed UploadItem.id s.items
  fresh : ∀ item ∈ s.items, item.id < s.nextId
  nodup : s.running.Nodup
  runs : ∀ id, id ∈ s.running ↔ ∃ item ∈ s.items, item.id = id ∧ item.status = .uploading
  limited : s.running.length ≤ maxConcurrentUploads
  asked : ∀ item ∈ s.items, item.overwrite = true ∨ item.status = .conflict →
    UploadLog.answer item.id .conflict ∈ s.log
  log : AskedFirst s.log
  done : total uploaded s.log = total toldDone s.log + s.done
  failed : total failures s.log = total toldFailed s.log + s.failed

/-- Nothing waits while fewer uploads run than may. -/
def Busy (s : Uploads) : Prop :=
  (∃ item ∈ s.items, item.status = .queued) → s.running.length = maxConcurrentUploads

/-- Once nothing is pending, the batch was told. -/
def Told (s : Uploads) : Prop :=
  (¬ ∃ item ∈ s.items, pending item) → s.done = 0 ∧ s.failed = 0

/-- The items that are uploading are those of the runs. -/
theorem Sound.length_uploading (h : s.Sound) :
  (s.items.filter (fun item => item.status = .uploading)).length = s.running.length
  := by
  have hnodup : ((s.items.filter (fun item => item.status = .uploading)).map UploadItem.id).Nodup :=
    h.keyed.filter _
  have hperm : ((s.items.filter (fun item => item.status = .uploading)).map UploadItem.id).Perm
      s.running := by
    rw [List.perm_ext_iff_of_nodup hnodup h.nodup]
    intro id
    rw [h.runs, List.mem_map]
    constructor
    · rintro ⟨item, hitem, rfl⟩
      obtain ⟨hmem, hstatus⟩ := List.mem_filter.mp hitem
      exact ⟨item, hmem, rfl, of_decide_eq_true hstatus⟩
    · rintro ⟨item, hmem, rfl, hstatus⟩
      exact ⟨item, List.mem_filter.mpr ⟨hmem, decide_eq_true hstatus⟩, rfl⟩
  rw [← hperm.length_eq, List.length_map]

/-! ### Starting uploads -/

theorem run_eq (hkeyed : Keyed UploadItem.id s.items) {item : UploadItem}
    (hitem : item ∈ s.items) :
  s.run item.id =
    { s.update item.id (fun item => { item with status := .uploading }) with
      running := s.running ++ [item.id]
      log := s.log ++ [.request item.id (!item.overwrite)] }
  := by
  unfold run
  rw [find?_of_mem hkeyed hitem]

/-- A queued item is started. -/
theorem Sound.run (h : s.Sound) {item : UploadItem} (hitem : item ∈ s.items)
    (hqueued : item.status = .queued) (hfree : s.running.length < maxConcurrentUploads) :
  (s.run item.id).Sound
  := by
  rw [run_eq h.keyed hitem]
  have hmem := mem_items_update (fun item => { item with status := .uploading }) h.keyed
    hitem rfl
  have hnew : item.id ∉ s.running := by
    rw [h.runs]
    rintro ⟨other, hother, hid, hstatus⟩
    rw [h.keyed.eq_of_mem hother hitem hid, hqueued] at hstatus
    cases hstatus
  constructor
  · exact h.keyed.update (fun _ => rfl)
  · intro other hother
    obtain rfl | ⟨hother, -⟩ := (hmem other).mp hother
    · exact h.fresh item hitem
    · exact h.fresh other hother
  · exact List.nodup_append.mpr ⟨h.nodup, List.nodup_singleton _, by
      rintro id hid id' hid' rfl
      rw [List.mem_singleton.mp hid'] at hid
      exact hnew hid⟩
  · intro id
    rw [List.mem_append, h.runs, List.mem_singleton]
    constructor
    · rintro (⟨other, hother, rfl, hstatus⟩ | rfl)
      · refine ⟨other, (hmem other).mpr (.inr ⟨hother, ?_⟩), rfl, hstatus⟩
        intro hid
        rw [h.keyed.eq_of_mem hother hitem hid, hqueued] at hstatus
        cases hstatus
      · exact ⟨_, (hmem _).mpr (.inl rfl), rfl, rfl⟩
    · rintro ⟨other, hother, rfl, hstatus⟩
      obtain rfl | ⟨hother, -⟩ := (hmem other).mp hother
      · exact .inr rfl
      · exact .inl ⟨other, hother, rfl, hstatus⟩
  · rw [List.length_append, List.length_singleton]
    exact hfree
  · intro other hother hcase
    apply List.mem_append_left
    obtain rfl | ⟨hother, -⟩ := (hmem other).mp hother
    · apply h.asked item hitem
      obtain hover | ⟨⟨⟩⟩ := hcase
      exact .inl hover
    · exact h.asked other hother hcase
  · apply h.log.concat
    intro id heq
    injection heq with hid hover
    rw [← hid]
    exact h.asked item hitem (.inl (by simpa using hover))
  · rw [total_concat, total_concat]
    exact h.done
  · rw [total_concat, total_concat]
    exact h.failed

/-- The item with the number is queued in one list exactly if it is in the other. -/
structure Pumped (s s' : Uploads) : Prop where
  sound : s'.Sound
  busy : s'.Busy
  pending : (∃ item ∈ s'.items, pending item) ↔ ∃ item ∈ s.items, Uploads.pending item
  done : s'.done = s.done
  failed : s'.failed = s.failed

/-- The loop over the items that were there starts the queued ones while it may. -/
theorem pumpItems_pumped (items : List UploadItem) (hitems : (items.map UploadItem.id).Nodup)
    (h : s.Sound) (hsnapshot : ∀ item ∈ items, item.status = .queued → item ∈ s.items)
    (hrest : ∀ item ∈ s.items, item.status = .queued → item ∈ items) :
  Pumped s (pumpItems items s.running.length s)
  := by
  induction items generalizing s with
  | nil =>
      refine ⟨h, ?_, Iff.rfl, rfl, rfl⟩
      rintro ⟨item, hitem, hqueued⟩
      cases hrest item hitem hqueued
  | cons item items ih =>
      obtain ⟨hfirst, hnodup⟩ := List.nodup_cons.mp hitems
      unfold pumpItems
      split
      case isTrue hfull =>
        exact ⟨h, fun _ => Nat.le_antisymm h.limited hfull, Iff.rfl, rfl, rfl⟩
      case isFalse hfree =>
        split
        case isTrue hother =>
          apply ih hnodup h
          · exact fun item' hitem' => hsnapshot item' (List.mem_cons_of_mem item hitem')
          · intro item' hitem' hqueued
            obtain rfl | hmem := List.mem_cons.mp (hrest item' hitem' hqueued)
            · exact absurd hqueued hother
            · exact hmem
        case isFalse hqueued =>
          rw [not_not] at hqueued
          have hitem := hsnapshot item List.mem_cons_self hqueued
          have hsound := h.run hitem hqueued (Nat.lt_of_not_le hfree)
          have hmem := mem_items_update (fun item => { item with status := .uploading })
            h.keyed hitem rfl
          have hstarted := run_eq h.keyed hitem
          have hlength : (s.run item.id).running.length = s.running.length + 1 := by
            rw [hstarted, List.length_append, List.length_singleton]
          rw [← hlength]
          have hpumped := ih hnodup hsound (by
            intro item' hitem' hqueued'
            rw [hstarted]
            refine (hmem item').mpr (.inr ⟨hsnapshot item' (List.mem_cons_of_mem item hitem')
              hqueued', ?_⟩)
            intro hid
            exact hfirst (List.mem_map.mpr ⟨item', hitem', hid⟩)) (by
            intro item' hitem' hqueued'
            rw [hstarted] at hitem'
            obtain rfl | ⟨hold, hne⟩ := (hmem item').mp hitem'
            · cases hqueued'
            · obtain rfl | hlater := List.mem_cons.mp (hrest item' hold hqueued')
              · exact absurd rfl hne
              · exact hlater)
          have hkept : (s.run item.id).done = s.done ∧ (s.run item.id).failed = s.failed := by
            rw [hstarted]
            exact ⟨rfl, rfl⟩
          refine ⟨hpumped.sound, hpumped.busy, hpumped.pending.trans ?_,
            hpumped.done.trans hkept.1, hpumped.failed.trans hkept.2⟩
          constructor
          · rintro -
            exact ⟨item, hitem, .inl hqueued⟩
          · rintro -
            rw [hstarted]
            exact ⟨_, (hmem _).mpr (.inl rfl), .inr (.inl rfl)⟩

theorem pump_pumped (h : s.Sound) :
  Pumped s s.pump
  := by
  unfold pump
  rw [h.length_uploading]
  exact pumpItems_pumped s.items h.keyed h (fun _ hitem _ => hitem) (fun _ hitem _ => hitem)

/-! ### Toasts -/

theorem summarizeIfDrained_items :
  s.summarizeIfDrained.items = s.items ∧ s.summarizeIfDrained.running = s.running
  := by
  unfold summarizeIfDrained
  split
  · exact ⟨rfl, rfl⟩
  · split
    · exact ⟨rfl, rfl⟩
    · exact ⟨rfl, rfl⟩

theorem told_summarizeIfDrained :
  s.summarizeIfDrained.Told
  := by
  unfold summarizeIfDrained
  split
  case isTrue hpending => exact fun hnone => absurd hpending hnone
  case isFalse =>
    split
    case isTrue hzero => exact fun _ => hzero
    case isFalse => exact fun _ => ⟨rfl, rfl⟩

theorem Sound.summarizeIfDrained (h : s.Sound) :
  s.summarizeIfDrained.Sound
  := by
  unfold Uploads.summarizeIfDrained
  split
  · exact h
  · split
    · exact h
    · constructor
      · exact h.keyed
      · exact h.fresh
      · exact h.nodup
      · exact h.runs
      · exact h.limited
      · intro item hitem hcase
        exact List.mem_append_left _ (h.asked item hitem hcase)
      · apply h.log.concat
        rintro id ⟨⟩
      · rw [total_concat, total_concat, h.done]
        rfl
      · rw [total_concat, total_concat, h.failed]
        rfl

/-! ### Buttons -/

/-- An item that is not uploading becomes one that is not. -/
theorem Sound.patch (h : s.Sound) {item : UploadItem} (hitem : item ∈ s.items)
    {patch : UploadItem → UploadItem} (hid : ∀ item, (patch item).id = item.id)
    (hbefore : item.status ≠ .uploading) (hafter : (patch item).status ≠ .uploading)
    (hasked : (patch item).overwrite = true ∨ (patch item).status = .conflict →
      item.overwrite = true ∨ item.status = .conflict) :
  (s.update item.id patch).Sound
  := by
  have hmem := mem_items_update patch h.keyed hitem rfl
  constructor
  · exact h.keyed.update hid
  · intro other hother
    obtain rfl | ⟨hother, -⟩ := (hmem other).mp hother
    · rw [hid]
      exact h.fresh item hitem
    · exact h.fresh other hother
  · exact h.nodup
  · intro id
    rw [show (s.update item.id patch).running = s.running from rfl, h.runs]
    constructor
    · rintro ⟨other, hother, rfl, hstatus⟩
      refine ⟨other, (hmem other).mpr (.inr ⟨hother, ?_⟩), rfl, hstatus⟩
      intro hsame
      rw [h.keyed.eq_of_mem hother hitem hsame] at hstatus
      exact hbefore hstatus
    · rintro ⟨other, hother, rfl, hstatus⟩
      obtain rfl | ⟨hother, -⟩ := (hmem other).mp hother
      · exact absurd hstatus hafter
      · exact ⟨other, hother, rfl, hstatus⟩
  · exact h.limited
  · intro other hother hcase
    obtain rfl | ⟨hother, -⟩ := (hmem other).mp hother
    · rw [hid]
      exact h.asked item hitem (hasked hcase)
    · exact h.asked other hother hcase
  · exact h.log
  · exact h.done
  · exact h.failed

/-- The invariant over whole runs. -/
structure Kept (s : Uploads) : Prop where
  sound : s.Sound
  busy : s.Busy
  told : s.Told

theorem Kept.replace (h : s.Kept) {item : UploadItem} (hitem : item ∈ s.items)
    (hconflict : item.status = .conflict) :
  (s.replace item.id).Kept
  := by
  have hsound : (s.update item.id
      (fun item => { item with status := .queued, overwrite := true })).Sound := by
    refine h.sound.patch hitem ?_ ?_ ?_ ?_
    · exact fun _ => rfl
    · rw [hconflict]
      rintro ⟨⟩
    · rintro ⟨⟩
    · exact fun _ => .inr hconflict
  have hpumped := pump_pumped hsound
  refine ⟨hpumped.sound, hpumped.busy, ?_⟩
  intro hnone
  apply absurd _ hnone
  apply hpumped.pending.mpr
  exact ⟨_, (mem_items_update _ h.sound.keyed hitem rfl _).mpr (.inl rfl), .inl rfl⟩

theorem Kept.skip (h : s.Kept) {item : UploadItem} (hitem : item ∈ s.items)
    (hwaits : item.status = .queued ∨ item.status = .conflict) :
  (s.skip item.id).Kept
  := by
  have hsound : (s.update item.id (fun item => { item with status := .skipped })).Sound := by
    refine h.sound.patch hitem ?_ ?_ ?_ ?_
    · exact fun _ => rfl
    · rintro huploading
      rw [huploading] at hwaits
      obtain ⟨⟨⟩⟩ | ⟨⟨⟩⟩ := hwaits
    · rintro ⟨⟩
    · rintro (hover | ⟨⟨⟩⟩)
      exact .inl hover
  refine ⟨hsound.summarizeIfDrained, ?_, told_summarizeIfDrained⟩
  unfold Busy Uploads.skip
  rw [summarizeIfDrained_items.1, summarizeIfDrained_items.2]
  rintro ⟨other, hother, hqueued⟩
  obtain rfl | ⟨hother, -⟩ := (mem_items_update _ h.sound.keyed hitem rfl other).mp hother
  · cases hqueued
  · exact h.busy ⟨other, hother, hqueued⟩

/-- Items that are finished are taken off the list. -/
theorem Kept.filter (h : s.Kept) {p : UploadItem → Bool}
    (hp : ∀ item ∈ s.items, pending item → p item = true) :
  Kept { s with items := s.items.filter p }
  := by
  have hmem : ∀ item, item ∈ s.items.filter p → item ∈ s.items :=
    fun item hitem => List.mem_of_mem_filter hitem
  refine ⟨⟨h.sound.keyed.filter p, fun item hitem => h.sound.fresh item (hmem item hitem),
    h.sound.nodup, ?_, h.sound.limited, fun item hitem => h.sound.asked item (hmem item hitem),
    h.sound.log, h.sound.done, h.sound.failed⟩, ?_, ?_⟩
  · intro id
    rw [h.sound.runs]
    constructor
    · rintro ⟨item, hitem, rfl, hstatus⟩
      exact ⟨item, List.mem_filter.mpr ⟨hitem, hp item hitem (.inr (.inl hstatus))⟩, rfl, hstatus⟩
    · rintro ⟨item, hitem, rfl, hstatus⟩
      exact ⟨item, hmem item hitem, rfl, hstatus⟩
  · rintro ⟨item, hitem, hqueued⟩
    exact h.busy ⟨item, hmem item hitem, hqueued⟩
  · intro hnone
    apply h.told
    rintro ⟨item, hitem, hpending⟩
    exact hnone ⟨item, List.mem_filter.mpr ⟨hitem, hp item hitem hpending⟩, hpending⟩

theorem not_pending_of_isFinished {item : UploadItem} (h : item.status.isFinished = true) :
  ¬ pending item
  := by
  rintro (hstatus | hstatus | hstatus)
  · rw [hstatus] at h
    cases h
  · rw [hstatus] at h
    cases h
  · rw [hstatus] at h
    cases h

/-! ### Drops -/

/-- Files are dropped: their items are new, and none of them is uploading. -/
theorem Sound.append (h : s.Sound) (items : List UploadItem) (nextId : Nat)
    (hkeyed : Keyed UploadItem.id items)
    (hfresh : ∀ item ∈ items, s.nextId ≤ item.id ∧ item.id < nextId) (hnext : s.nextId ≤ nextId)
    (hstatus : ∀ item ∈ items, item.status ≠ .uploading ∧ item.status ≠ .conflict ∧
      item.overwrite = false) :
  Sound { s with items := s.items ++ items, nextId := nextId }
  := by
  constructor
  · unfold Keyed
    rw [List.map_append, List.nodup_append]
    refine ⟨h.keyed, hkeyed, ?_⟩
    rintro id hid id' hid' rfl
    obtain ⟨item, hitem, rfl⟩ := List.mem_map.mp hid
    obtain ⟨item', hitem', heq⟩ := List.mem_map.mp hid'
    have hlt := h.fresh item hitem
    have hle := (hfresh item' hitem').1
    omega
  · intro item hitem
    obtain hitem | hitem := List.mem_append.mp hitem
    · exact Nat.lt_of_lt_of_le (h.fresh item hitem) hnext
    · exact (hfresh item hitem).2
  · exact h.nodup
  · intro id
    rw [show ({ s with items := s.items ++ items, nextId := nextId } : Uploads).running = s.running
      from rfl, h.runs]
    constructor
    · rintro ⟨item, hitem, hrest⟩
      exact ⟨item, List.mem_append_left _ hitem, hrest⟩
    · rintro ⟨item, hitem, hid, huploading⟩
      obtain hitem | hitem := List.mem_append.mp hitem
      · exact ⟨item, hitem, hid, huploading⟩
      · exact absurd huploading (hstatus item hitem).1
  · exact h.limited
  · intro item hitem hcase
    obtain hitem | hitem := List.mem_append.mp hitem
    · exact h.asked item hitem hcase
    · obtain ⟨-, hconflict, hover⟩ := hstatus item hitem
      obtain hcase | hcase := hcase
      · rw [hover] at hcase
        cases hcase
      · exact absurd hcase hconflict
  · exact h.log
  · exact h.done
  · exact h.failed

theorem Kept.enqueue (h : s.Kept) (maxUploadBytes : Nat) (inputs : List UploadInput) :
  (s.enqueue maxUploadBytes inputs).Kept
  := by
  have hids : (inputs.mapIdx (fun i input =>
      newItem maxUploadBytes (s.nextId + i) input)).map UploadItem.id =
      (List.range inputs.length).map (s.nextId + ·) := by
    apply List.ext_getElem
    · simp
    · intro i hi hi'
      simp [newItem]
  have hitems : ∀ item ∈ inputs.mapIdx (fun i input =>
      newItem maxUploadBytes (s.nextId + i) input),
      item.status ≠ .uploading ∧ item.status ≠ .conflict ∧ item.overwrite = false := by
    intro item hitem
    obtain ⟨i, hi, rfl⟩ := List.mem_mapIdx.mp hitem
    unfold newItem
    dsimp only
    split
    · exact ⟨by rintro ⟨⟩, by rintro ⟨⟩, rfl⟩
    · exact ⟨by rintro ⟨⟩, by rintro ⟨⟩, rfl⟩
  have hsound := h.sound.append (inputs.mapIdx (fun i input =>
      newItem maxUploadBytes (s.nextId + i) input)) (s.nextId + inputs.length) (by
      unfold Keyed
      rw [hids]
      exact List.nodup_range.map (fun _ _ heq => Nat.add_left_cancel heq)) (by
      intro item hitem
      have hid : item.id ∈ (List.range inputs.length).map (s.nextId + ·) :=
        hids ▸ List.mem_map_of_mem hitem
      obtain ⟨i, hi, heq⟩ := List.mem_map.mp hid
      rw [List.mem_range] at hi
      omega) (Nat.le_add_right _ _) hitems
  have hpumped := pump_pumped hsound
  refine ⟨hpumped.sound, hpumped.busy, ?_⟩
  intro hnone
  unfold Uploads.enqueue
  rw [hpumped.done, hpumped.failed]
  apply h.told
  rintro ⟨item, hitem, hpending⟩
  exact hnone (hpumped.pending.mpr ⟨item, List.mem_append_left _ hitem, hpending⟩)

/-! ### Answers -/

/-- A run returns, and its item is not uploading any more. -/
theorem Sound.ended (h : s.Sound) {item : UploadItem} (hitem : item ∈ s.items)
    (patch : UploadItem → UploadItem) (hid : ∀ item, (patch item).id = item.id) (hafter : (patch item).status ≠ .uploading)
    (hover : (patch item).overwrite = item.overwrite) {answer : UploadAnswer}
    (hconflict : (patch item).status = .conflict → answer = .conflict) {done failed : Nat}
    (hdone : done = s.done + uploaded (.answer item.id answer))
    (hfailed : failed = s.failed + failures (.answer item.id answer)) :
  Sound
    { s.update item.id patch with
      running := s.running.erase item.id
      done := done
      failed := failed
      log := s.log ++ [.answer item.id answer] }
  := by
  have hmem := mem_items_update patch h.keyed hitem rfl
  constructor
  · exact h.keyed.update hid
  · intro other hother
    obtain rfl | ⟨hother, -⟩ := (hmem other).mp hother
    · rw [hid]
      exact h.fresh item hitem
    · exact h.fresh other hother
  · exact h.nodup.erase _
  · intro id
    dsimp only
    rw [h.nodup.mem_erase_iff, h.runs]
    constructor
    · rintro ⟨hne, other, hother, rfl, hstatus⟩
      exact ⟨other, (hmem other).mpr (.inr ⟨hother, hne⟩), rfl, hstatus⟩
    · rintro ⟨other, hother, rfl, hstatus⟩
      obtain rfl | ⟨hother, hne⟩ := (hmem other).mp hother
      · exact absurd hstatus hafter
      · exact ⟨hne, other, hother, rfl, hstatus⟩
  · exact Nat.le_trans List.length_erase_le h.limited
  · intro other hother hcase
    obtain rfl | ⟨hother, -⟩ := (hmem other).mp hother
    · rw [hid]
      obtain hcase | hcase := hcase
      · apply List.mem_append_left
        exact h.asked item hitem (.inl (hover ▸ hcase))
      · rw [hconflict hcase]
        exact List.mem_append_right _ (List.mem_singleton_self _)
    · exact List.mem_append_left _ (h.asked other hother hcase)
  · apply h.log.concat
    rintro id ⟨⟩
  · rw [total_concat, total_concat, h.done, hdone, Nat.add_assoc]
    rfl
  · rw [total_concat, total_concat, h.failed, hfailed, Nat.add_assoc]
    rfl

theorem Kept.answered (h : s.Kept) (id : Nat) (answer : UploadAnswer) :
  (s.answered id answer).Kept
  := by
  unfold Uploads.answered
  split
  case isFalse => exact h
  case isTrue hid =>
    obtain ⟨item, hitem, rfl, -⟩ := (h.sound.runs id).mp hid
    have hsound : (settle item.id answer { s with
        running := s.running.erase item.id, log := s.log ++ [.answer item.id answer] }).Sound := by
      cases answer with
      | ok version =>
          exact h.sound.ended hitem
            (fun item => { item with status := .done, version := some version }) (fun _ => rfl)
            (by rintro ⟨⟩) rfl (by rintro ⟨⟩) rfl rfl
      | conflict =>
          exact h.sound.ended hitem (fun item => { item with status := .conflict }) (fun _ => rfl)
            (by rintro ⟨⟩) rfl (fun _ => rfl) rfl rfl
      | aborted =>
          exact h.sound.ended hitem (fun item => { item with status := .skipped }) (fun _ => rfl)
            (by rintro ⟨⟩) rfl (by rintro ⟨⟩) rfl rfl
      | failed =>
          exact h.sound.ended hitem (fun item => { item with status := .error }) (fun _ => rfl)
            (by rintro ⟨⟩) rfl (by rintro ⟨⟩) rfl rfl
    have hpumped := pump_pumped hsound
    refine ⟨hpumped.sound.summarizeIfDrained, ?_, told_summarizeIfDrained⟩
    unfold Busy
    rw [summarizeIfDrained_items.1, summarizeIfDrained_items.2]
    exact hpumped.busy

/-! ### Runs -/

theorem Kept.step (h : s.Kept) (action : UploadAction) :
  (s.step action).Kept
  := by
  cases action with
  | enqueue maxUploadBytes inputs => exact h.enqueue maxUploadBytes inputs
  | replace id =>
      unfold Uploads.step
      dsimp only
      split
      case isFalse => exact h
      case isTrue hasks =>
        obtain ⟨item, hfind, hconflict⟩ := hasks
        obtain ⟨hitem, rfl⟩ := mem_of_find? hfind
        exact h.replace hitem hconflict
  | skip id =>
      unfold Uploads.step
      dsimp only
      split
      case isFalse => exact h
      case isTrue hasks =>
        obtain ⟨item, hfind, hconflict⟩ := hasks
        obtain ⟨hitem, rfl⟩ := mem_of_find? hfind
        exact h.skip hitem (.inr hconflict)
  | cancel id =>
      unfold Uploads.step cancel
      dsimp only
      split
      case h_1 => exact h
      case h_2 item hfind =>
        split
        case isFalse => exact h
        case isTrue hqueued =>
          obtain ⟨hitem, rfl⟩ := mem_of_find? hfind
          exact h.skip hitem (.inl hqueued)
  | dismiss id =>
      unfold Uploads.step
      dsimp only
      split
      case isFalse => exact h
      case isTrue hasks =>
        obtain ⟨item, hfind, hfinished⟩ := hasks
        obtain ⟨hitem, rfl⟩ := mem_of_find? hfind
        apply h.filter
        intro other hother hpending
        rw [decide_eq_true_iff]
        intro hsame
        rw [h.sound.keyed.eq_of_mem hother hitem hsame] at hpending
        exact not_pending_of_isFinished hfinished hpending
  | clearFinished =>
      apply h.filter
      intro item _ hpending
      cases hfinished : item.status.isFinished with
      | true => exact absurd hpending (not_pending_of_isFinished hfinished)
      | false => rfl
  | answered id answer => exact h.answered id answer

theorem kept_new :
  new.Kept
  where
    sound :=
      { keyed := keyed_nil
        fresh := by rintro item ⟨⟩
        nodup := .nil
        runs := fun id => ⟨by rintro ⟨⟩, by rintro ⟨item, ⟨⟩, -⟩⟩
        limited := Nat.zero_le _
        asked := by rintro item ⟨⟩
        log := by
          intro before id after heq
          cases before with
          | nil => cases heq
          | cons entry before => cases heq
        done := rfl
        failed := rfl }
    busy := by rintro ⟨item, ⟨⟩, -⟩
    told := fun _ => ⟨rfl, rfl⟩

theorem Kept.runAll (h : s.Kept) (actions : List UploadAction) :
  (s.runAll actions).Kept
  := by
  induction actions generalizing s with
  | nil => exact h
  | cons action actions ih => exact ih (h.step action)

/-- What holds of the store, whatever was asked of it. -/
structure UploadLaw (s : Uploads) : Prop where
  /-- An item is uploading exactly while it has one run. -/
  runs : s.running.Nodup ∧
    ∀ id, id ∈ s.running ↔ ∃ item ∈ s.items, item.id = id ∧ item.status = .uploading
  limited : s.running.length ≤ 3
  /-- An item waits only while three others are uploading. -/
  busy : (∃ item ∈ s.items, item.status = .queued) → s.running.length = 3
  /-- No file is replaced before the user was asked. -/
  asked : AskedFirst s.log
  /-- Once nothing is pending, the toasts have told every upload and every failure. -/
  told : (¬ ∃ item ∈ s.items, pending item) →
    total uploaded s.log = total toldDone s.log ∧ total failures s.log = total toldFailed s.log

/-- The law of the store holds after all actions. -/
theorem upload_law (actions : List UploadAction) :
  UploadLaw (new.runAll actions)
  := by
  have h := kept_new.runAll actions
  refine ⟨⟨h.sound.nodup, h.sound.runs⟩, h.sound.limited, h.busy, h.sound.log, ?_⟩
  intro hnone
  obtain ⟨hdone, hfailed⟩ := h.told hnone
  exact ⟨by rw [h.sound.done, hdone, Nat.add_zero], by rw [h.sound.failed, hfailed, Nat.add_zero]⟩

end Uploads

end AgentFs

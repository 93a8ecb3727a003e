import Mathlib.Algebra.Order.BigOperators.Group.List
import Mathlib.Algebra.Order.Group.Nat
import AgentFs.JustBash.Copy

/-!
# Copies and moves conserve files

`cp` with `recursive` and `mv` of any path to any other one: that they end, and when every file
that was under the source is at the corresponding path under the destination.
-/

namespace AgentFs.JustBash

open Fueled

section

variable {fate : Nat → Fate} {arrange : List LsEntry → List LsEntry} {marker : Text}
variable {D : Drive} {src dest : Route}

/-- A file that was at the path below the source, or at the source itself; a marker is none. -/
def WasFile (D : Drive) (src : Route) (marker : Text) (r : Route) (bytes : Bytes) : Prop :=
  D.get (src ++ r) = some bytes ∧ (src ++ r).getLast? ≠ some marker

/-- Every file that was under the source is at the corresponding path under the destination. -/
def Conserved (D : Drive) (src dest : Route) (marker : Text) (after : Drive) : Prop :=
  ∀ r bytes, WasFile D src marker r bytes → after.get (dest ++ r) = some bytes

/-- Every file that was under the source is there or at the corresponding path. -/
def Kept (D : Drive) (src dest : Route) (marker : Text) (after : Drive) : Prop :=
  ∀ r bytes, WasFile D src marker r bytes →
    after.get (src ++ r) = some bytes ∨ after.get (dest ++ r) = some bytes

/-- What a move removes: a file, or everything under a directory. -/
def Removed (D : Drive) (src t : Route) : Prop :=
  if (D.get src).isSome then t = src else src <+: t

/-- The copy comes to every file under the source, but for those that are at the destination
with the same bytes. -/
def Covered (D : Drive) (src dest : Route) (marker : Text) : Prop :=
  ∀ r bytes, WasFile D src marker r bytes →
    Walks D src marker r ∨ D.get (dest ++ r) = some bytes

/-- The copy comes to every file under the source, but for those that are at the destination
with the same bytes and are not removed after it. -/
def MoveCovered (D : Drive) (src dest : Route) (marker : Text) : Prop :=
  ∀ r bytes, WasFile D src marker r bytes →
    Walks D src marker r ∨ D.get (dest ++ r) = some bytes ∧ ¬ Removed D src (dest ++ r)

/-- The source is a file; or the names below it and the marker are plain, and no path that the
copy may write is under the source, unless source and destination are equal. -/
def Regular (D : Drive) (src dest : Route) (marker : Text) : Prop :=
  (D.get src).isSome ∨
    PlainBelow D src ∧ PlainName marker ∧ (dest = src ∨ Apart D src dest marker)

/-! ### A file -/

theorem Walks.of_file (hsome : (D.get src).isSome) {r : Route} (h : Walks D src marker r) :
  r = []
  := by
  by_contra hr
  have hnone := h.folders [] r rfl hr
  rw [List.append_nil] at hnone
  rw [hnone] at hsome
  cases hsome

theorem walks_nil :
  Walks D src marker []
  where
  folders := by
    intro a b h hb
    exact absurd (List.append_eq_nil_iff.mp h.symm).2 hb
  names := by
    intro name hname
    exact absurd hname List.not_mem_nil

theorem cp_file {bytes : Bytes} (hbytes : D.get src = some bytes) (fuel : Nat)
    (recursive : Bool) :
  Triple (fun s => s.drive = D) (cp fate arrange marker (fuel + 1) src dest recursive)
    (fun r s => r = .ok () → s.drive = D.set dest bytes)
  := by
  have herror : ∀ (e : ShellError) (t : Shell), t.drive = D →
      (Except.error e = Except.ok () → t.drive = D.set dest bytes) := by
    rintro e t - ⟨⟩
  unfold cp
  apply Reads.triple (validatePath_reads _ _) _ herror
  intro u hu
  apply Reads.triple (validatePath_reads _ _) _ herror
  intro u hu
  apply Reads.triple (assertParentWritable_reads _ _) _ herror
  intro u hu
  apply Reads.triple (fileExists_reads _) _ herror
  intro found hfound
  rw [hbytes, Option.isSome_some] at hfound
  rw [if_pos hfound]
  apply Triple.bind (mutate_triple _)
  · rintro u t (⟨e, ⟨⟩, -⟩ | ⟨effects, heffects, ⟨-, ht⟩ | ⟨e, done, ⟨⟩, -⟩⟩)
    apply Triple.weaken (remember_reads _) (fun _ h => h) _ t rfl
    rintro r t' ⟨ht', -⟩ -
    rw [ht', ht]
    unfold DriveOp.effects at heffects
    dsimp only at heffects
    split_ifs at heffects
    rw [hbytes, Option.map_some, Option.some.injEq] at heffects
    rw [← heffects]
    rfl
  · rintro e t - ⟨⟩

/-- Moving a file: nothing happens, it is copied, or it is moved. -/
theorem mv_file {bytes : Bytes} (hbytes : D.get src = some bytes) (fuel : Nat) :
  Triple (fun s => s.drive = D) (mv fate arrange marker fuel src dest)
    (fun r s => (∃ e, r = .error e ∧ (s.drive = D ∨ s.drive = D.set dest bytes)) ∨
      src ≠ dest ∧ s.drive = (D.set dest bytes).delete src)
  := by
  have herror : ∀ (e : ShellError) (t : Shell), t.drive = D →
      (∃ e', (Except.error e : Except ShellError Unit) = .error e' ∧
        (t.drive = D ∨ t.drive = D.set dest bytes)) ∨
      src ≠ dest ∧ t.drive = (D.set dest bytes).delete src := by
    intro e t ht
    exact .inl ⟨e, rfl, .inl ht⟩
  unfold mv
  apply Reads.triple (validatePath_reads _ _) _ herror
  intro u hu
  apply Reads.triple (validatePath_reads _ _) _ herror
  intro u hu
  apply Reads.triple (assertParentWritable_reads _ _) _ herror
  intro u hu
  apply Reads.triple (fileExists_reads _) _ herror
  intro found hfound
  rw [hbytes, Option.isSome_some] at hfound
  rw [if_pos hfound]
  have heffects : ∀ effects, DriveOp.effects D (.mv src dest) = some effects →
      src ≠ dest ∧ effects = [.put dest bytes, .remove src] := by
    intro effects h
    unfold DriveOp.effects at h
    dsimp only at h
    split_ifs at h with hsame
    rw [hbytes, Option.map_some, Option.some.injEq] at h
    exact ⟨hsame, h.symm⟩
  apply Triple.bind (mutate_triple _)
  · rintro u t (⟨e, ⟨⟩, -⟩ | ⟨effects, h, ⟨-, ht⟩ | ⟨e, done, ⟨⟩, -⟩⟩)
    obtain ⟨hne, rfl⟩ := heffects effects h
    apply Triple.weaken (remember_reads _) (fun _ h => h) _ t rfl
    rintro r t' ⟨ht', -⟩
    rw [ht', ht]
    exact .inr ⟨hne, rfl⟩
  · rintro e t (⟨-, -, ht⟩ | ⟨effects, h, ⟨⟨⟩, -⟩ | ⟨-, done, -, ht⟩⟩)
    · exact herror e t ht
    · obtain ⟨hne, rfl⟩ := heffects effects h
      rcases done with _ | _ | done
      · exact herror e t ht
      · exact .inl ⟨e, rfl, .inr ht⟩
      · right
        refine ⟨hne, ?_⟩
        rw [ht, List.take_succ_cons, List.take_succ_cons, List.take_nil]
        rfl

theorem wasFile_nil {bytes bytes' : Bytes} (hbytes : D.get src = some bytes)
    (h : WasFile D src marker [] bytes') :
  bytes = bytes'
  := by
  have hnil := h.1
  rw [List.append_nil, hbytes, Option.some.injEq] at hnil
  exact hnil

theorem conserved_file {bytes : Bytes} (hbytes : D.get src = some bytes) :
  Conserved D src dest marker (D.set dest bytes) ↔ Covered D src dest marker
  := by
  have hsome : (D.get src).isSome := by rw [hbytes]; rfl
  constructor
  · intro h r bytes' hr
    by_cases hnil : r = []
    · subst hnil
      exact .inl walks_nil
    · have hget := h r bytes' hr
      rw [OrderedMap.get_set, if_neg (by simpa using hnil)] at hget
      exact .inr hget
  · intro h r bytes' hr
    rw [OrderedMap.get_set]
    by_cases hnil : r = []
    · subst hnil
      rw [if_pos (List.append_nil dest), wasFile_nil hbytes hr]
    · rw [if_neg (by simpa using hnil)]
      rcases h r bytes' hr with hwalks | hget
      · exact absurd (hwalks.of_file hsome) hnil
      · exact hget

theorem get_moved {bytes : Bytes} (r : Route) :
  ((D.set dest bytes).delete src).get (dest ++ r) =
    if dest ++ r = src then none else if r = [] then some bytes else D.get (dest ++ r)
  := by
  rw [OrderedMap.get_delete, OrderedMap.get_set]
  simp

theorem moved_file {bytes : Bytes} (hbytes : D.get src = some bytes) (hne : src ≠ dest) :
  Conserved D src dest marker ((D.set dest bytes).delete src) ↔ MoveCovered D src dest marker
  := by
  have hsome : (D.get src).isSome := by rw [hbytes]; rfl
  have hremoved : ∀ t, Removed D src t ↔ t = src := by
    intro t
    unfold Removed
    rw [if_pos hsome]
  unfold Conserved MoveCovered
  simp only [get_moved, hremoved]
  constructor
  · intro h r bytes' hr
    by_cases hnil : r = []
    · subst hnil
      exact .inl walks_nil
    · have hget := h r bytes' hr
      split_ifs at hget with hsrc
      exact .inr ⟨hget, hsrc⟩
  · intro h r bytes' hr
    by_cases hnil : r = []
    · subst hnil
      rw [List.append_nil, if_neg hne.symm, if_pos rfl, wasFile_nil hbytes hr]
    · rcases h r bytes' hr with hwalks | ⟨hget, hsrc⟩
      · exact absurd (hwalks.of_file hsome) hnil
      · rw [if_neg hsrc, if_neg hnil, hget]

theorem kept_file {bytes : Bytes} (hbytes : D.get src = some bytes)
    (h : MoveCovered D src dest marker) {after : Drive}
    (hafter : after = D ∨ after = D.set dest bytes ∨
      src ≠ dest ∧ after = (D.set dest bytes).delete src) :
  Kept D src dest marker after
  := by
  have hsome : (D.get src).isSome := by rw [hbytes]; rfl
  intro r bytes' hr
  by_cases hnil : r = []
  · subst hnil
    have hsame := wasFile_nil hbytes hr
    subst hsame
    rcases hafter with rfl | rfl | ⟨hne, rfl⟩
    · left
      rw [List.append_nil, hbytes]
    · right
      rw [List.append_nil, OrderedMap.get_set, if_pos rfl]
    · right
      rw [get_moved, List.append_nil, if_neg hne.symm, if_pos rfl]
  · right
    rcases h r bytes' hr with hwalks | ⟨hget, hremoved⟩
    · exact absurd (hwalks.of_file hsome) hnil
    · unfold Removed at hremoved
      rw [if_pos hsome] at hremoved
      rcases hafter with rfl | rfl | ⟨-, rfl⟩
      · exact hget
      · rw [OrderedMap.get_set, if_neg (by simpa using hnil), hget]
      · rw [get_moved, if_neg hremoved, if_neg hnil, hget]

/-! ### A directory -/

/-- The names below a path are at most so many. -/
theorem exists_bound (D : Drive) (src : Route) :
  ∃ bound, ∀ r, (D.get (src ++ r)).isSome → r.length ≤ bound
  := by
  use (D.entries.map (fun e => e.1.length)).sum
  intro r hr
  obtain ⟨bytes, he⟩ := isSome_get_iff.mp hr
  have hle : (src ++ r).length ≤ (D.entries.map (fun e => e.1.length)).sum :=
    List.le_sum_of_mem (List.mem_map.mpr ⟨_, he, rfl⟩)
  rw [List.length_append] at hle
  omega

/-- A file below a directory, that is no marker, has a last name below it. -/
theorem WasFile.getLast?_ne (hdir : D.get src = none) {r : Route} {bytes : Bytes}
    (h : WasFile D src marker r bytes) (front : Route) :
  (front ++ r).getLast? ≠ some marker
  := by
  have hnil : r ≠ [] := by
    rintro rfl
    have hget := h.1
    rw [List.append_nil, hdir] at hget
    cases hget
  have hlast := h.2
  rw [List.getLast?_append_of_ne_nil _ hnil] at hlast ⊢
  exact hlast

/-- When the walk has ended, a file is at the destination if the walk came to it or it was
there. -/
theorem Copying.get_dest {d : Drive} (h : Copying D src dest marker (fun _ => True) d)
    (hdir : D.get src = none) {r : Route} {bytes : Bytes} (hr : WasFile D src marker r bytes) :
  d.get (dest ++ r) = some bytes ↔ Walks D src marker r ∨ D.get (dest ++ r) = some bytes
  := by
  rw [← hr.1]
  rcases h.changed _ (hr.getLast?_ne hdir dest) with hsame | ⟨r', heq, hwalks, -, hget⟩
  · rw [← hsame]
    constructor
    · exact .inr
    · rintro (hwalks | hget)
      · exact (h.copied r trivial hwalks (by rw [hr.1]; rfl)).1
      · exact hget
  · rw [List.append_cancel_left_eq] at heq
    subst heq
    exact iff_of_true hget (.inl hwalks)

theorem cp_directory (harrange : ∀ entries, (arrange entries).Perm entries)
    (hplain : PlainBelow D src) (hmarker : PlainName marker)
    (hapart : dest = src ∨ Apart D src dest marker) {bound fuel : Nat}
    (hbound : ∀ r, (D.get (src ++ r)).isSome → r.length ≤ bound) (hfuel : bound < fuel) :
  Triple (fun s => s.drive = D) (cp fate arrange marker fuel src dest true) (fun r s =>
    Copying D src dest marker (fun _ => False) s.drive ∧
      (r = .ok () → Copying D src dest marker (fun _ => True) s.drive))
  := by
  have hwalk : Triple (fun s => Copying D src dest marker (fun _ => False) s.drive)
      (cp fate arrange marker fuel (src ++ []) (dest ++ []) true) _ :=
    cp_copying harrange hapart hplain hmarker hbound (.inl rfl) walks_nil hfuel true _
  rw [List.append_nil, List.append_nil] at hwalk
  apply Triple.weaken hwalk
  · rintro s rfl
    exact copying_start
  · rintro r s ⟨hs, hok⟩
    exact ⟨hs, fun hr => (hok hr).mono (fun r _ _ _ => .inr (List.nil_prefix))⟩

/-- What the drive has below the source while it is copied is what it had, and markers. -/
theorem Copying.plainBelow {K : Route → Prop} {d : Drive} (h : Copying D src dest marker K d)
    (hplain : PlainBelow D src) (hmarker : PlainName marker) {bound : Nat}
    (hbound : ∀ r, (D.get (src ++ r)).isSome → r.length ≤ bound) :
  PlainBelow d src ∧ ∀ r, (d.get (src ++ r)).isSome → r.length ≤ bound + 1
  := by
  have htree : ∀ p, Tree D src p → (∀ name ∈ p, PlainName name) ∧ p.length ≤ bound := by
    rintro p (rfl | ⟨r, hr⟩)
    · exact ⟨fun name hname => absurd hname List.not_mem_nil, Nat.zero_le _⟩
    · rw [List.append_assoc] at hr
      have hle := hbound _ hr
      rw [List.length_append] at hle
      exact ⟨fun name hname => hplain _ hr name (List.mem_append_left _ hname), by omega⟩
  constructor
  · intro r hr
    rcases h.source r with heq | ⟨p, hp, rfl⟩
    · rw [heq] at hr
      exact hplain r hr
    · intro name hname
      rcases List.mem_append.mp hname with hname | hname
      · exact (htree p hp).1 name hname
      · rw [List.mem_singleton.mp hname]
        exact hmarker
  · intro r hr
    rcases h.source r with heq | ⟨p, hp, rfl⟩
    · rw [heq] at hr
      exact Nat.le_succ_of_le (hbound r hr)
    · rw [List.length_append, List.length_singleton]
      exact Nat.succ_le_succ (htree p hp).2

/-- Moving a directory fails while it is copied, or removes what is under the source of the
copied drive. -/
theorem mv_directory (harrange : ∀ entries, (arrange entries).Perm entries)
    (hdir : D.get src = none) (hplain : PlainBelow D src) (hmarker : PlainName marker)
    (hapart : dest = src ∨ Apart D src dest marker) {bound fuel : Nat}
    (hbound : ∀ r, (D.get (src ++ r)).isSome → r.length ≤ bound) (hfuel : bound + 1 < fuel) :
  Triple (fun s => s.drive = D) (mv fate arrange marker fuel src dest) (fun r s =>
    (∃ e, r = .error e ∧ Copying D src dest marker (fun _ => False) s.drive) ∨
      ∃ d, Copying D src dest marker (fun _ => True) d ∧
        (∀ t, ¬ src <+: t → s.drive.get t = d.get t) ∧
        (r = .ok () → ∀ t, src <+: t → s.drive.get t = none))
  := by
  have herror : ∀ (e : ShellError) (t : Shell), t.drive = D →
      (∃ e', (Except.error e : Except ShellError Unit) = .error e' ∧
        Copying D src dest marker (fun _ => False) t.drive) ∨
      ∃ d, Copying D src dest marker (fun _ => True) d ∧
        (∀ t', ¬ src <+: t' → t.drive.get t' = d.get t') ∧
        (Except.error e = Except.ok () → ∀ t', src <+: t' → t.drive.get t' = none) := by
    rintro e t rfl
    exact .inl ⟨e, rfl, copying_start⟩
  unfold mv
  apply Reads.triple (validatePath_reads _ _) _ herror
  intro u hu
  apply Reads.triple (validatePath_reads _ _) _ herror
  intro u hu
  apply Reads.triple (assertParentWritable_reads _ _) _ herror
  intro u hu
  apply Reads.triple (fileExists_reads _) _ herror
  rintro _ rfl
  rw [hdir, Option.isSome_none, if_neg (by simp)]
  apply Reads.triple (directoryExists_reads _) _ herror
  intro found hfound
  split
  · exact Triple.throw (herror _)
  · apply Triple.bind (cp_directory harrange hplain hmarker hapart hbound (by omega))
    · rintro u s ⟨-, hok⟩
      have hs := hok rfl
      obtain ⟨hplain', hbound'⟩ := hs.plainBelow hplain hmarker hbound
      have hnone : s.drive.get src = none := by
        have hsame := hs.source_eq (r := []) (by simp)
        rw [List.append_nil, hdir] at hsame
        exact hsame
      apply (rm_triple harrange hnone hplain' (by omega)
        (fun r hr => Nat.lt_of_le_of_lt (hbound' r hr) hfuel)).weaken (fun _ h => h) _ s rfl
      rintro r t ⟨hothers, hgone⟩
      exact .inr ⟨s.drive, hs, hothers, hgone⟩
    · rintro e s ⟨hs, -⟩
      exact .inl ⟨e, rfl, hs⟩

/-- A file that a covered move takes from a directory is at the destination. -/
theorem MoveCovered.get_dest (h : MoveCovered D src dest marker) (hdir : D.get src = none)
    (hapart : dest = src ∨ Apart D src dest marker) {d after : Drive}
    (hd : Copying D src dest marker (fun _ => True) d)
    (hothers : ∀ t, ¬ src <+: t → after.get t = d.get t) {r : Route} {bytes : Bytes}
    (hr : WasFile D src marker r bytes) :
  after.get (dest ++ r) = some bytes
  := by
  have hsome : (D.get (src ++ r)).isSome := by rw [hr.1]; rfl
  have hoff : ¬ src <+: dest ++ r := by
    rcases h r bytes hr with hwalks | ⟨-, hremoved⟩
    · rcases hapart with rfl | hapart
      · exact absurd rfl (hd.copied r trivial hwalks hsome).2
      · exact (hapart r (.inr ⟨[], by simpa using hsome⟩)).1
    · unfold Removed at hremoved
      rw [hdir, Option.isSome_none, if_neg (by simp)] at hremoved
      exact hremoved
  rw [hothers _ hoff, hd.get_dest hdir hr]
  rcases h r bytes hr with hwalks | ⟨hget, -⟩
  · exact .inl hwalks
  · exact .inr hget

theorem moved_directory (hdir : D.get src = none)
    (hapart : dest = src ∨ Apart D src dest marker) {d after : Drive}
    (hd : Copying D src dest marker (fun _ => True) d)
    (hothers : ∀ t, ¬ src <+: t → after.get t = d.get t)
    (hgone : ∀ t, src <+: t → after.get t = none) :
  Conserved D src dest marker after ↔ MoveCovered D src dest marker
  := by
  constructor
  · intro h r bytes hr
    have hget := h r bytes hr
    have hoff : ¬ src <+: dest ++ r := by
      intro hunder
      rw [hgone _ hunder] at hget
      cases hget
    rw [hothers _ hoff, hd.get_dest hdir hr] at hget
    rcases hget with hwalks | hget
    · exact .inl hwalks
    · refine .inr ⟨hget, ?_⟩
      unfold Removed
      rw [hdir, Option.isSome_none, if_neg (by simp)]
      exact hoff
  · intro h r bytes hr
    exact h.get_dest hdir hapart hd hothers hr

/-! ### Any source and destination -/

/-- A copy ends, and when it succeeds it has conserved the files exactly when it covers them. -/
theorem cp_conserves (harrange : ∀ entries, (arrange entries).Perm entries)
    (h : Regular D src dest marker) :
  ∃ n, ∀ fuel ≥ n, Triple (fun s => s.drive = D) (cp fate arrange marker fuel src dest true)
    (fun r s => r = .ok () →
      (Conserved D src dest marker s.drive ↔ Covered D src dest marker))
  := by
  cases hsrc : D.get src with
  | some bytes =>
      use 1
      intro fuel hfuel
      obtain ⟨fuel, rfl⟩ : ∃ m, fuel = m + 1 := ⟨fuel - 1, by omega⟩
      apply Triple.weaken (cp_file hsrc fuel true) (fun _ hs => hs)
      intro r s hs hr
      rw [hs hr]
      exact conserved_file hsrc
  | none =>
      unfold Regular at h
      rw [hsrc] at h
      obtain ⟨⟨⟩⟩ | ⟨hplain, hmarker, hapart⟩ := h
      obtain ⟨bound, hbound⟩ := exists_bound D src
      use bound + 1
      intro fuel hfuel
      apply Triple.weaken (cp_directory harrange hplain hmarker hapart hbound (by omega))
        (fun _ hs => hs)
      rintro r s ⟨-, hok⟩ hr
      unfold Conserved Covered
      have hget : ∀ r bytes, WasFile D src marker r bytes → _ :=
        fun r bytes hr' => (hok hr).get_dest hsrc hr'
      constructor
      · intro hconserved r bytes hr'
        exact (hget r bytes hr').mp (hconserved r bytes hr')
      · intro hcovered r bytes hr'
        exact (hget r bytes hr').mpr (hcovered r bytes hr')

/-- A move ends, and when it succeeds it has conserved the files exactly when it covers them;
and then it loses none if it fails. -/
theorem mv_conserves (harrange : ∀ entries, (arrange entries).Perm entries)
    (h : Regular D src dest marker) :
  ∃ n, ∀ fuel ≥ n, Triple (fun s => s.drive = D) (mv fate arrange marker fuel src dest)
    (fun r s => (r = .ok () →
        (Conserved D src dest marker s.drive ↔ MoveCovered D src dest marker)) ∧
      (MoveCovered D src dest marker → Kept D src dest marker s.drive))
  := by
  cases hsrc : D.get src with
  | some bytes =>
      use 0
      intro fuel hfuel
      apply Triple.weaken (mv_file hsrc fuel) (fun _ hs => hs)
      rintro r s (⟨e, rfl, hs⟩ | ⟨hne, hs⟩)
      · refine ⟨by rintro ⟨⟩, fun hcovered => kept_file hsrc hcovered ?_⟩
        rcases hs with hs | hs
        · exact .inl hs
        · exact .inr (.inl hs)
      · refine ⟨fun _ => ?_, fun hcovered => kept_file hsrc hcovered (.inr (.inr ⟨hne, hs⟩))⟩
        rw [hs]
        exact moved_file hsrc hne
  | none =>
      unfold Regular at h
      rw [hsrc] at h
      obtain ⟨⟨⟩⟩ | ⟨hplain, hmarker, hapart⟩ := h
      obtain ⟨bound, hbound⟩ := exists_bound D src
      use bound + 2
      intro fuel hfuel
      apply Triple.weaken
        (mv_directory harrange hsrc hplain hmarker hapart hbound (by omega)) (fun _ hs => hs)
      rintro r s (⟨e, rfl, hs⟩ | ⟨d, hd, hothers, hgone⟩)
      · refine ⟨by rintro ⟨⟩, fun _ r bytes hr => .inl ?_⟩
        have hlast := hr.getLast?_ne hsrc []
        rw [List.nil_append] at hlast
        rw [hs.source_eq hlast, hr.1]
      · refine ⟨fun hr => moved_directory hsrc hapart hd hothers (hgone hr), ?_⟩
        exact fun hcovered r bytes hr => .inr (hcovered.get_dest hsrc hapart hd hothers hr)

end

/-- A drive with a directory that holds a file and a directory with a file. -/
def sampleDrive : Drive :=
  (OrderedMap.empty.set ["a".toList, "x".toList] [1]).set
    ["a".toList, "y".toList, "z".toList] [2]

/-- A drive with a path that is a file and a folder. -/
def sampleFileAndFolder : Drive :=
  (OrderedMap.empty.set ["a".toList, "x".toList] [1]).set
    ["a".toList, "x".toList, "y".toList] [2]

end AgentFs.JustBash

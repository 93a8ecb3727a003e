import AgentFs.JustBash.Reads

/-!
# Removing a directory

`rm` of a directory removes every file that a listing below it shows, and no other one.
-/

namespace AgentFs.JustBash

open Fueled

section

variable {fate : Nat → Fate} {arrange : List LsEntry → List LsEntry} {marker : Text} {d : Drive}

/-- The names below a path are plain. -/
def PlainBelow (d : Drive) (route : Route) : Prop :=
  ∀ r, (d.get (route ++ r)).isSome → ∀ name ∈ r, PlainName name

theorem PlainBelow.child {route : Route} (h : PlainBelow d route) (name : Text) :
  PlainBelow d (route ++ [name])
  := by
  intro r hr other hother
  rw [List.append_assoc] at hr
  exact h _ hr other (List.mem_append_right _ hother)

/-- What the round of `collectFilePaths` for an entry finds. -/
structure Finds (d : Drive) (route : Route) (entry : LsEntry) (found : List Route) : Prop where
  under : ∀ f ∈ found, route ++ [entry.name] <+: f
  file : entry.type = .file → route ++ [entry.name] ∈ found
  folder : entry.type = .directory → ∀ r, r ≠ [] →
    (d.get (route ++ [entry.name] ++ r)).isSome → route ++ [entry.name] ++ r ∈ found

/-- Removing files removes no other one. -/
theorem forEach_rm_triple (files : List Route) :
  Triple (fun s => s.drive = d) (Fueled.forEach (fun file => mutate fate (.rm file)) files)
    (fun r s => (∀ t, t ∉ files → s.drive.get t = d.get t) ∧
      (r = .ok () → ∀ t ∈ files, s.drive.get t = none))
  := by
  refine Triple.weaken (Triple.forEach
    (I := fun done s => (∀ t, t ∉ done → s.drive.get t = d.get t) ∧
      ∀ t ∈ done, s.drive.get t = none)
    (E := fun _ s => ∀ t, t ∉ files → s.drive.get t = d.get t) ?_) ?_ ?_
  · intro done file rest hfiles
    apply Triple.of_forall
    rintro s ⟨hothers, hdone⟩
    have hremove : ∀ t, (Effect.apply s.drive (.remove file)).get t =
        if t = file then none else s.drive.get t :=
      fun t => OrderedMap.get_delete _ _ _
    apply Triple.weaken (mutate_single
      (rfl : DriveOp.effects s.drive (.rm file) = some [.remove file]))
    · rintro t rfl
      rfl
    · rintro (e | u) t ht
      · intro x hx
        rw [hfiles] at hx
        have hx' : x ∉ done := fun hmem => hx (List.mem_append_left _ hmem)
        rcases ht with ⟨-, -, ht⟩ | ht
        · rw [ht]
          exact hothers x hx'
        · rw [ht, hremove, if_neg, hothers x hx']
          rintro rfl
          exact hx (List.mem_append_right _ List.mem_cons_self)
      · have ht : t.drive = Effect.apply s.drive (.remove file) := by
          rcases ht with ⟨e, ⟨⟩, -⟩ | ht
          exact ht
        constructor
        · intro x hx
          rw [List.mem_append, not_or, List.mem_singleton] at hx
          rw [ht, hremove, if_neg hx.2, hothers x hx.1]
        · intro x hx
          rw [ht, hremove]
          split
          · rfl
          · rename_i hne
            rcases List.mem_append.mp hx with hx | hx
            · exact hdone x hx
            · exact absurd (List.mem_singleton.mp hx) hne
  · rintro s rfl
    exact ⟨fun _ _ => rfl, fun t ht => absurd ht List.not_mem_nil⟩
  · rintro (e | u) s hs
    · exact ⟨hs, by rintro ⟨⟩⟩
    · exact ⟨hs.1, fun _ => hs.2⟩

section

variable (harrange : ∀ entries, (arrange entries).Perm entries)

include harrange

theorem PlainBelow.plain_of_mem_ls {route : Route} (h : PlainBelow d route) {entry : LsEntry}
    (hentry : entry ∈ ls arrange route d) :
  PlainName entry.name
  := by
  obtain ⟨-, ⟨-, hsome⟩ | ⟨-, next, rest, hsome⟩⟩ := of_mem_ls harrange hentry
  · exact h _ hsome _ List.mem_cons_self
  · exact h _ hsome _ List.mem_cons_self

/-- What all rounds find are the files below the directory. -/
theorem files_of_rounds {route : Route} (hplain : PlainBelow d route) {files : List Route}
    (hall : ∀ f ∈ files, ∃ entry ∈ ls arrange route d, ∃ found, Finds d route entry found ∧
      f ∈ found)
    (heach : ∀ entry ∈ ls arrange route d, ∃ found, Finds d route entry found ∧
      ∀ f ∈ found, f ∈ files) :
  (∀ f ∈ files, route <+: f) ∧
    ∀ r, r ≠ [] → (d.get (route ++ r)).isSome → route ++ r ∈ files
  := by
  constructor
  · intro f hf
    obtain ⟨entry, -, found, hfinds, hfound⟩ := hall f hf
    exact (List.prefix_append route [entry.name]).trans (hfinds.under f hfound)
  · intro r hr hsome
    cases r with
    | nil => exact absurd rfl hr
    | cons name r =>
        have hname := (hplain _ hsome name List.mem_cons_self).nonempty
        cases r with
        | nil =>
            obtain ⟨entry, hentry, rfl, htype⟩ := file_mem_ls harrange hname hsome
            obtain ⟨found, hfinds, hfound⟩ := heach entry hentry
            exact hfound _ (hfinds.file htype)
        | cons next r =>
            obtain ⟨entry, hentry, rfl, htype⟩ := folder_mem_ls harrange hname hsome
            obtain ⟨found, hfinds, hfound⟩ := heach entry hentry
            have hmem := hfinds.folder htype (next :: r) (by simp) (by simpa using hsome)
            simpa using hfound _ hmem

/-- With more fuel than there are names, the files below a path are collected, and they are
below it. -/
theorem collectFilePaths_reads {fuel : Nat} {route : Route} (hplain : PlainBelow d route)
    (hfuel : fuel ≠ 0) (hbound : ∀ r, (d.get (route ++ r)).isSome → r.length < fuel) :
  Reads d (collectFilePaths fate arrange marker fuel route) (fun files =>
    (∀ f ∈ files, route <+: f) ∧
      ∀ r, r ≠ [] → (d.get (route ++ r)).isSome → route ++ r ∈ files)
  := by
  induction fuel generalizing route with
  | zero => exact absurd rfl hfuel
  | succ fuel ih =>
      unfold collectFilePaths
      apply Reads.bind (listDirectory_reads route true)
      rintro _ rfl
      rw [if_pos rfl]
      have hrounds : ∀ entry ∈ ls arrange route d,
          Reads d (if entry.type = .directory then
              collectFilePaths fate arrange marker fuel (joinPath route entry.name)
            else pure [joinPath route entry.name]) (Finds d route entry) := by
        intro entry hentry
        rw [joinPath_eq (hplain.plain_of_mem_ls harrange hentry)]
        split
        · rename_i htype
          obtain ⟨-, ⟨hfile, -⟩ | ⟨-, next, rest, hsome⟩⟩ := of_mem_ls harrange hentry
          · rw [htype] at hfile
            cases hfile
          · apply Reads.weaken (ih (hplain.child entry.name) _ _)
            · rintro files ⟨hunder, hall⟩
              exact ⟨hunder, fun hfile => absurd (htype.symm.trans hfile) (by decide), fun _ => hall⟩
            · have hlt := hbound _ hsome
              simp only [List.length_cons] at hlt
              omega
            · intro r hr
              rw [List.append_assoc] at hr
              have hlt := hbound _ hr
              rw [List.singleton_append, List.length_cons] at hlt
              omega
        · rename_i htype
          apply Reads.pure
          refine ⟨?_, fun _ => List.mem_singleton_self _, fun h => absurd h htype⟩
          intro f hf
          obtain rfl := List.mem_singleton.mp hf
          apply List.prefix_refl
      apply Reads.weaken (Reads.collect hrounds)
      rintro files ⟨hall, heach⟩
      exact files_of_rounds harrange hplain hall heach

/-- `rm` of a directory removes what is below it, if it succeeds, and nothing else. -/
theorem rm_triple {fuel : Nat} {route : Route} (hnone : d.get route = none)
    (hplain : PlainBelow d route) (hfuel : fuel ≠ 0)
    (hbound : ∀ r, (d.get (route ++ r)).isSome → r.length < fuel) :
  Triple (fun s => s.drive = d) (rm fate arrange marker fuel route true false) (fun r s =>
    (∀ t, ¬ route <+: t → s.drive.get t = d.get t) ∧
      (r = .ok () → ∀ t, route <+: t → s.drive.get t = none))
  := by
  have herror : ∀ (e : ShellError) (s : Shell), s.drive = d →
      (∀ t, ¬ route <+: t → s.drive.get t = d.get t) ∧
        (Except.error e = Except.ok () → ∀ t, route <+: t → s.drive.get t = none) := by
    rintro e s rfl
    exact ⟨fun _ _ => rfl, by rintro ⟨⟩⟩
  apply Reads.triple (validatePath_reads _ _) _ herror
  intro u hu
  split
  · exact Triple.throw (herror _)
  · apply Reads.triple (fileExists_reads route) _ herror
    rintro _ rfl
    rw [hnone, Option.isSome_none, if_neg (by simp)]
    apply Reads.triple (listDirectory_reads route true) _ herror
    rintro entries hentries
    apply Reads.triple (Q := fun _ => True)
      (Triple.read (fun s hs => ⟨hs, fun _ _ => trivial⟩)) _ herror
    intro known hknown
    split
    · rw [if_neg (by simp)]
      exact Triple.throw (herror _)
    · rw [if_neg (by simp)]
      apply Reads.triple (collectFilePaths_reads harrange hplain hfuel hbound) _ herror
      rintro files ⟨hunder, hall⟩
      apply Triple.bind (forEach_rm_triple files)
      · rintro u s ⟨hothers, hdone⟩
        apply Triple.weaken (forgetDirectory_reads route) (fun _ hs => hs) _ s rfl
        rintro r t ⟨ht, -⟩
        rw [ht]
        constructor
        · exact fun x hx => hothers x (fun hmem => hx (hunder x hmem))
        · rintro - x ⟨rest, rfl⟩
          by_cases hmem : route ++ rest ∈ files
          · exact hdone rfl _ hmem
          · rw [hothers _ hmem]
            cases rest with
            | nil => rw [List.append_nil, hnone]
            | cons name rest =>
                rw [← Option.not_isSome_iff_eq_none]
                exact fun hsome => hmem (hall _ (by simp) hsome)
      · rintro e s ⟨hothers, -⟩
        exact ⟨fun t ht => hothers t (fun hmem => ht (hunder t hmem)), by rintro ⟨⟩⟩

end

end

end AgentFs.JustBash

import AgentFs.JustBash.Remove

/-!
# Copying a tree

What `cp` does to the drive while it walks a directory: the source stays what it was, but for
markers; a path of the destination is what it was, or has the bytes of the file of the source
that the walk came to; and a walk that ends has come to every file of the source whose path
passes no file and has no marker for a name.
-/

namespace AgentFs.JustBash

open Fueled

section

variable {fate : Nat → Fate} {arrange : List LsEntry → List LsEntry} {marker : Text}
variable {D d : Drive} {src dest : Route}

/-- A path below the source, itself or with a file below it. -/
def Tree (D : Drive) (src p : Route) : Prop :=
  p = [] ∨ ∃ r, (D.get (src ++ p ++ r)).isSome

/-- The path below the source passes no file and no name of a marker. -/
structure Walks (D : Drive) (src : Route) (marker : Text) (p : Route) : Prop where
  folders : ∀ a b, p = a ++ b → b ≠ [] → D.get (src ++ a) = none
  names : ∀ name ∈ p, name ≠ marker

/-- No path that the copy may write is below the source. -/
def Apart (D : Drive) (src dest : Route) (marker : Text) : Prop :=
  ∀ p, Tree D src p → ¬ src <+: dest ++ p ∧ ¬ src <+: dest ++ p ++ [marker]

/-- The drive while files are copied; those with `K` are copied. -/
structure Copying (D : Drive) (src dest : Route) (marker : Text) (K : Route → Prop)
    (d : Drive) : Prop where
  source : ∀ r, d.get (src ++ r) = D.get (src ++ r) ∨ ∃ p, Tree D src p ∧ r = p ++ [marker]
  changed : ∀ t, t.getLast? ≠ some marker → d.get t = D.get t ∨
    ∃ r, t = dest ++ r ∧ Walks D src marker r ∧ (D.get (src ++ r)).isSome ∧
      d.get t = D.get (src ++ r)
  copied : ∀ r, K r → Walks D src marker r → (D.get (src ++ r)).isSome →
    d.get (dest ++ r) = D.get (src ++ r) ∧ dest ++ r ≠ src ++ r

theorem copying_start :
  Copying D src dest marker (fun _ => False) D
  where
  source _ := .inl rfl
  changed _ _ := .inl rfl
  copied _ h := h.elim

theorem Copying.mono {K K' : Route → Prop} (h : Copying D src dest marker K d)
    (hK : ∀ r, K' r → Walks D src marker r → (D.get (src ++ r)).isSome → K r) :
  Copying D src dest marker K' d
  where
  source := h.source
  changed := h.changed
  copied r hr hwalks hsome := h.copied r (hK r hr hwalks hsome) hwalks hsome

theorem Walks.getLast?_ne {p : Route} (h : Walks D src marker p) :
  p.getLast? ≠ some marker
  := by
  intro hlast
  exact h.names marker (List.mem_of_getLast? hlast) rfl

/-- A file of the source that is no marker is as it was. -/
theorem Copying.source_eq {K : Route → Prop} (h : Copying D src dest marker K d) {r : Route}
    (hr : r.getLast? ≠ some marker) :
  d.get (src ++ r) = D.get (src ++ r)
  := by
  rcases h.source r with heq | ⟨p, -, rfl⟩
  · exact heq
  · rw [List.getLast?_concat] at hr
    exact absurd rfl hr

/-- A marker is put. -/
theorem Copying.put_marker {K : Route → Prop} (h : Copying D src dest marker K d)
    (hapart : dest = src ∨ Apart D src dest marker) {p : Route} (hp : Tree D src p) :
  Copying D src dest marker K (d.set (dest ++ p ++ [marker]) [])
  where
  source := by
    intro r
    rw [OrderedMap.get_set]
    split
    · rename_i heq
      right
      rcases hapart with rfl | hapart
      · rw [List.append_assoc, List.append_cancel_left_eq] at heq
        exact ⟨p, hp, heq⟩
      · exact absurd ⟨r, heq⟩ (hapart p hp).2
    · exact h.source r
  changed := by
    intro t ht
    rw [OrderedMap.get_set, if_neg]
    · exact h.changed t ht
    · rintro rfl
      exact ht List.getLast?_concat
  copied := by
    intro r hr hwalks hsome
    rw [OrderedMap.get_set, if_neg]
    · exact h.copied r hr hwalks hsome
    · rw [List.append_assoc, List.append_cancel_left_eq]
      rintro rfl
      exact hwalks.getLast?_ne List.getLast?_concat

/-- A file of the source is put at the destination. -/
theorem Copying.put_file {K : Route → Prop} (h : Copying D src dest marker K d)
    (hapart : dest = src ∨ Apart D src dest marker) {p : Route} (hp : Tree D src p)
    (hwalks : Walks D src marker p) {bytes : Bytes} (hbytes : D.get (src ++ p) = some bytes)
    (hne : dest ++ p ≠ src ++ p) :
  Copying D src dest marker (fun r => K r ∨ r = p) (d.set (dest ++ p) bytes)
  where
  source := by
    intro r
    rw [OrderedMap.get_set, if_neg]
    · exact h.source r
    · intro heq
      rcases hapart with rfl | hapart
      · exact hne rfl
      · exact (hapart p hp).1 ⟨r, heq⟩
  changed := by
    intro t ht
    rw [OrderedMap.get_set]
    split
    · rename_i heq
      exact .inr ⟨p, heq, hwalks, by rw [hbytes]; rfl, hbytes.symm⟩
    · exact h.changed t ht
  copied := by
    intro r hr hwalks' hsome
    rw [OrderedMap.get_set]
    split
    · rename_i heq
      rw [List.append_cancel_left_eq] at heq
      subst heq
      exact ⟨hbytes.symm, hne⟩
    · rename_i hother
      rcases hr with hr | rfl
      · exact h.copied r hr hwalks' hsome
      · exact absurd rfl hother

/-! ### Listing the source -/

section

variable {K : Route → Prop}

/-- An entry of a directory of the source leads to a file that was there. -/
theorem Copying.tree_of_mem_ls (harrange : ∀ entries, (arrange entries).Perm entries)
    (h : Copying D src dest marker K d) {p : Route} {entry : LsEntry}
    (hentry : entry ∈ ls arrange (src ++ p) d) (hmarker : entry.name ≠ marker) :
  ∃ r, (D.get (src ++ (p ++ [entry.name]) ++ r)).isSome
  := by
  -- the file that the entry shows, in the drive of now
  have hnow : ∃ r, (d.get (src ++ (p ++ entry.name :: r))).isSome ∧
      (p ++ entry.name :: r).getLast? ≠ some marker ∨
      (d.get (src ++ (p ++ entry.name :: r))).isSome ∧ r ≠ [] := by
    obtain ⟨-, ⟨-, hsome⟩ | ⟨-, next, rest, hsome⟩⟩ := of_mem_ls harrange hentry
    · refine ⟨[], .inl ⟨by rwa [List.append_assoc] at hsome, ?_⟩⟩
      rw [List.getLast?_concat]
      exact fun heq => hmarker (Option.some.inj heq)
    · exact ⟨next :: rest, .inr ⟨by rwa [List.append_assoc] at hsome, by simp⟩⟩
  obtain ⟨r, ⟨hsome, hlast⟩ | ⟨hsome, hr⟩⟩ := hnow
  · rw [h.source_eq hlast] at hsome
    exact ⟨r, by simpa using hsome⟩
  · rcases h.source (p ++ entry.name :: r) with heq | ⟨q, hq, heq⟩
    · rw [heq] at hsome
      exact ⟨r, by simpa using hsome⟩
    · -- a marker that was put: its directory has a file below it
      obtain ⟨front, last, rfl⟩ : ∃ front last, r = front ++ [last] :=
        ⟨r.dropLast, r.getLast hr, (List.dropLast_append_getLast hr).symm⟩
      have hq' : q = p ++ entry.name :: front := by
        rw [← List.cons_append, ← List.append_assoc] at heq
        exact (List.append_inj_left' heq rfl).symm
      rcases hq with hnil | ⟨rest, hrest⟩
      · rw [hq'] at hnil
        simp at hnil
      · exact ⟨front ++ rest, by simpa [hq'] using hrest⟩

/-- A file of the source is shown by the listing of each of its directories. -/
theorem Copying.mem_ls (harrange : ∀ entries, (arrange entries).Perm entries)
    (h : Copying D src dest marker K d) (hplain : PlainBelow D src) {p r : Route} {name : Text}
    (hwalks : Walks D src marker (p ++ name :: r))
    (hsome : (D.get (src ++ (p ++ name :: r))).isSome) :
  ∃ entry ∈ ls arrange (src ++ p) d, entry.name = name
  := by
  have hname : name ≠ [] := (hplain _ hsome name (by simp)).nonempty
  rw [← h.source_eq hwalks.getLast?_ne, ← List.append_assoc] at hsome
  cases r with
  | nil =>
      obtain ⟨entry, hentry, hentryName, -⟩ := file_mem_ls harrange hname hsome
      exact ⟨entry, hentry, hentryName⟩
  | cons next r =>
      obtain ⟨entry, hentry, hentryName, -⟩ := folder_mem_ls harrange hname hsome
      exact ⟨entry, hentry, hentryName⟩

end

theorem Walks.child {p : Route} (h : Walks D src marker p) (hnone : D.get (src ++ p) = none)
    {name : Text} (hname : name ≠ marker) :
  Walks D src marker (p ++ [name])
  where
  folders := by
    intro a b heq hb
    obtain ⟨front, last, rfl⟩ : ∃ front last, b = front ++ [last] :=
      ⟨b.dropLast, b.getLast hb, (List.dropLast_append_getLast hb).symm⟩
    rw [← List.append_assoc] at heq
    have hp : p = a ++ front := List.append_inj_left' heq rfl
    by_cases hfront : front = []
    · rw [hfront, List.append_nil] at hp
      rw [← hp]
      exact hnone
    · exact h.folders a front hp hfront
  names := by
    intro other hother
    rcases List.mem_append.mp hother with hother | hother
    · exact h.names other hother
    · rw [List.mem_singleton.mp hother]
      exact hname

/-! ### The walk -/

/-- The request that copies a file of the source. -/
theorem mutate_cp_copying {K : Route → Prop} (hapart : dest = src ∨ Apart D src dest marker)
    {p : Route} (hp : Tree D src p) (hwalks : Walks D src marker p)
    (hsome : (D.get (src ++ p)).isSome) :
  Triple (fun s => Copying D src dest marker K s.drive)
    (mutate fate (.cp (src ++ p) (dest ++ p))) (fun r s =>
      Copying D src dest marker K s.drive ∧
        (r = .ok () → Copying D src dest marker (fun r => K r ∨ r = p) s.drive))
  := by
  obtain ⟨bytes, hbytes⟩ := Option.isSome_iff_exists.mp hsome
  apply Triple.of_forall
  intro s hs
  have hnow : s.drive.get (src ++ p) = some bytes := by
    rw [hs.source_eq hwalks.getLast?_ne, hbytes]
  have hrefused : ∀ {K' : Route → Prop}, Copying D src dest marker K' s.drive →
      ∀ (e : ShellError) (t : Shell), t.drive = s.drive →
      Copying D src dest marker K t.drive ∧ (Except.error e = Except.ok () →
        Copying D src dest marker (fun r => K r ∨ r = p) t.drive) := by
    intro K' h e t ht
    exact ⟨ht ▸ hs, by rintro ⟨⟩⟩
  by_cases hsame : src ++ p = dest ++ p
  · have hnone : DriveOp.effects s.drive (.cp (src ++ p) (dest ++ p)) = none := if_pos hsame
    apply Triple.weaken (mutate_triple (d := s.drive) _) (by rintro t rfl; rfl)
    rintro r t (⟨e, rfl, ht⟩ | ⟨effects, heffects, -⟩)
    · exact hrefused hs e t ht
    · rw [hnone] at heffects
      cases heffects
  · have hput := hs.put_file hapart hp hwalks hbytes (Ne.symm hsame)
    have heffects : DriveOp.effects s.drive (.cp (src ++ p) (dest ++ p)) =
        some [.put (dest ++ p) bytes] := by
      unfold DriveOp.effects
      dsimp only
      rw [if_neg hsame, hnow]
      rfl
    apply Triple.weaken (mutate_single heffects) (by rintro t rfl; rfl)
    rintro r t (⟨e, rfl, ht⟩ | ht)
    · exact hrefused hs e t ht
    · rw [ht]
      exact ⟨hput.mono (fun r hr _ _ => .inl hr), fun _ => hput⟩

/-- The walk through the entries of a directory, when each step below it does what it should. -/
theorem forEach_cp_copying {K : Route → Prop} {fuel : Nat} {p : Route} {entries : List LsEntry}
    (hchild : ∀ entry ∈ entries, ∀ K' : Route → Prop,
      Triple (fun s => Copying D src dest marker K' s.drive)
        (cp fate arrange marker fuel (joinPath (src ++ p) entry.name)
          (joinPath (dest ++ p) entry.name) (entry.type = .directory)) (fun r s =>
          Copying D src dest marker K' s.drive ∧ (r = .ok () →
            Copying D src dest marker (fun r => K' r ∨ p ++ [entry.name] <+: r) s.drive))) :
  Triple (fun s => Copying D src dest marker K s.drive)
    (Fueled.forEach (fun entry => cp fate arrange marker fuel (joinPath (src ++ p) entry.name)
      (joinPath (dest ++ p) entry.name) (entry.type = .directory)) entries) (fun r s =>
      Copying D src dest marker K s.drive ∧ (r = .ok () →
        Copying D src dest marker (fun r => K r ∨ ∃ entry ∈ entries, p ++ [entry.name] <+: r)
          s.drive))
  := by
  refine Triple.weaken (Triple.forEach
    (I := fun done s => Copying D src dest marker
      (fun r => K r ∨ ∃ entry ∈ done, p ++ [entry.name] <+: r) s.drive)
    (E := fun _ s => Copying D src dest marker K s.drive) ?_) ?_ ?_
  · intro done entry rest hentries
    apply Triple.weaken (hchild entry (by rw [hentries]; simp) _) (fun _ hs => hs)
    rintro (e | u) s ⟨hs, hok⟩
    · exact hs.mono (fun r hr _ _ => .inl hr)
    · apply (hok rfl).mono
      rintro r (hr | ⟨other, hother, hbelow⟩) - -
      · exact .inl (.inl hr)
      · rcases List.mem_append.mp hother with hother | hother
        · exact .inl (.inr ⟨other, hother, hbelow⟩)
        · rw [List.mem_singleton.mp hother] at hbelow
          exact .inr hbelow
  · intro s hs
    apply hs.mono
    rintro r (hr | ⟨entry, hentry, -⟩) - -
    · exact hr
    · exact absurd hentry List.not_mem_nil
  · rintro (e | u) s hs
    · exact ⟨hs, by rintro ⟨⟩⟩
    · exact ⟨hs.mono (fun r hr _ _ => .inl hr), fun _ => hs⟩

/-- The walk from a path of the source, with enough fuel for the names below it. -/
theorem cp_copying (harrange : ∀ entries, (arrange entries).Perm entries)
    (hapart : dest = src ∨ Apart D src dest marker) (hplain : PlainBelow D src)
    (hmarker : PlainName marker) {bound : Nat}
    (hbound : ∀ r, (D.get (src ++ r)).isSome → r.length ≤ bound) {fuel : Nat} {p : Route}
    (hp : Tree D src p) (hwalks : Walks D src marker p) (hfuel : bound < fuel + p.length)
    (recursive : Bool) (K : Route → Prop) :
  Triple (fun s => Copying D src dest marker K s.drive)
    (cp fate arrange marker fuel (src ++ p) (dest ++ p) recursive) (fun r s =>
      Copying D src dest marker K s.drive ∧
        (r = .ok () → Copying D src dest marker (fun r => K r ∨ p <+: r) s.drive))
  := by
  induction fuel generalizing p recursive K with
  | zero =>
      have hlength : p.length ≤ bound := by
        rcases hp with rfl | ⟨r, hr⟩
        · apply Nat.zero_le
        · rw [List.append_assoc] at hr
          have hle := hbound _ hr
          rw [List.length_append] at hle
          omega
      omega
  | succ fuel ih =>
      apply Triple.of_forall
      intro s hs
      have herror : ∀ (e : ShellError) (t : Shell), t.drive = s.drive →
          Copying D src dest marker K t.drive ∧ (Except.error e = Except.ok () →
            Copying D src dest marker (fun r => K r ∨ p <+: r) t.drive) := by
        intro e t ht
        exact ⟨ht ▸ hs, by rintro ⟨⟩⟩
      apply Triple.weaken _ (by rintro t rfl; exact rfl) (fun _ _ h => h)
        (P := fun t => t.drive = s.drive)
      unfold cp
      apply Reads.triple (validatePath_reads _ _) _ herror
      intro u hu
      apply Reads.triple (validatePath_reads _ _) _ herror
      intro u hu
      apply Reads.triple (assertParentWritable_reads _ _) _ herror
      intro u hu
      apply Reads.triple (fileExists_reads _) _ herror
      intro found hfound
      rw [hs.source_eq hwalks.getLast?_ne] at hfound
      split
      · rename_i htrue
        rw [htrue] at hfound
        apply Triple.bind ((mutate_cp_copying hapart hp hwalks hfound.symm).weaken
          (by rintro t ht; rw [ht]; exact hs) (fun _ _ h => h))
        · rintro u t ⟨-, ht⟩
          apply Triple.weaken (remember_reads _) (fun _ h => h) _ t rfl
          rintro r t' ⟨ht', -⟩
          rw [ht']
          refine ⟨(ht rfl).mono (fun r hr _ _ => .inl hr), fun _ => (ht rfl).mono ?_⟩
          rintro r (hr | ⟨rest, rfl⟩) hwalks' -
          · exact .inl hr
          · -- the walk ends at a file
            by_cases hrest : rest = []
            · exact .inr (by rw [hrest, List.append_nil])
            · rw [hwalks'.folders p rest rfl hrest] at hfound
              cases hfound
        · rintro e t ⟨ht, -⟩
          exact ⟨ht, by rintro ⟨⟩⟩
      · rename_i hfalse
        rw [Bool.not_eq_true] at hfalse
        rw [hfalse, eq_comm, Option.isSome_eq_false_iff, Option.isNone_iff_eq_none] at hfound
        apply Reads.triple (directoryExists_reads _) _ herror
        intro exists_ hexists
        split
        · exact Triple.throw (herror _)
        · split
          · exact Triple.throw (herror _)
          · have hcopying : ∀ t : Shell, (t.drive = s.drive ∨
                t.drive = s.drive.set (markerPath marker (dest ++ p)) []) →
                Copying D src dest marker K t.drive := by
              rintro t (ht | ht)
              · rw [ht]
                exact hs
              · rw [ht]
                unfold markerPath
                rw [joinPath_eq hmarker]
                exact hs.put_marker hapart hp
            apply Triple.bind (mkdir_triple _)
            · rintro u t ht
              have hdrive := hcopying t ht
              apply Reads.triple (listDirectory_reads _ _) _ _ t rfl
              · rintro entries rfl
                rw [if_neg (by simp)]
                apply Triple.weaken (forEach_cp_copying _) (by rintro t' ht'; rw [ht']; exact hdrive)
                · rintro r t' ⟨ht', hok⟩
                  refine ⟨ht', fun hr => (hok hr).mono ?_⟩
                  rintro r (hr | ⟨rest, rfl⟩) hwalks' hsome
                  · exact .inl hr
                  · cases rest with
                    | nil =>
                        rw [List.append_nil, hfound] at hsome
                        cases hsome
                    | cons name rest =>
                        right
                        obtain ⟨entry, hentry, rfl⟩ :=
                          hdrive.mem_ls harrange hplain hwalks' hsome
                        refine ⟨entry, List.mem_filter.mpr ⟨hentry, ?_⟩, rest, by simp⟩
                        exact decide_eq_true (hwalks'.names entry.name (by simp))
                · intro entry hentry K'
                  rw [List.mem_filter, decide_eq_true_eq] at hentry
                  obtain ⟨r, hr⟩ := hdrive.tree_of_mem_ls harrange hentry.1 hentry.2
                  have hname : PlainName entry.name :=
                    hplain _ (by rwa [List.append_assoc] at hr) entry.name (by simp)
                  rw [joinPath_eq hname, joinPath_eq hname, List.append_assoc, List.append_assoc]
                  apply ih (.inr ⟨r, hr⟩) (hwalks.child hfound hentry.2)
                  rw [List.length_append, List.length_singleton]
                  omega
              · rintro e t' ht'
                rw [ht']
                exact ⟨hdrive, by rintro ⟨⟩⟩
            · rintro e t ht
              exact ⟨hcopying t ht, by rintro ⟨⟩⟩

end

end AgentFs.JustBash

import AgentFs.Favorites.Stars
import AgentFs.Lib.Split

/-!
# Stars and files

In every sequential run a user has at most one star on a path, a file star names a live file and a
folder star a folder with a live file under it.  A removed file can only empty the folders above
it, and these are the ones that the hooks look at.
-/

namespace AgentFs.Favorites

/-! ### Paths without empty segments -/

/-- A path that starts with a slash and has no empty segment after it. -/
def CleanPath (path : Text) : Prop :=
  path.head? = some '/' ∧ ∀ s ∈ path.tail.splitOn '/', s ≠ []

instance (path : Text) : Decidable (CleanPath path) :=
  inferInstanceAs (Decidable (_ ∧ _))

theorem CleanPath.exists_body {path : Text} (h : CleanPath path) :
  ∃ body, path = '/' :: body ∧ ∀ s ∈ body.splitOn '/', s ≠ []
  := by
  obtain ⟨body, rfl⟩ := List.head?_eq_some_iff.mp h.1
  exact ⟨body, rfl, h.2⟩

/-- A clean path does not end in a slash. -/
theorem CleanPath.normalizePrefix_eq {path : Text} (h : CleanPath path) :
  normalizePrefix path = path ++ ['/']
  := by
  have hlast : path.getLast? ≠ some '/' := by
    intro hlast
    obtain ⟨init, hinit⟩ := List.getLast?_eq_some_iff.mp hlast
    apply h.2 [] _ rfl
    rw [hinit]
    cases init with
    | nil => exact List.mem_singleton_self []
    | cons c init =>
        rw [List.cons_append, List.tail_cons, List.splitOn_append_cons_self]
        exact List.mem_append_right _ (List.mem_singleton_self [])
  unfold normalizePrefix
  rw [if_pos h.1, if_neg hlast]

/-- A clean folder above a clean path is one of its ancestors. -/
theorem mem_ancestorFolders {path folder : Text} (hpath : CleanPath path)
    (hfolder : CleanPath folder) (h : folder ++ ['/'] <+: path) :
  folder ∈ ancestorFolders path
  := by
  obtain ⟨body, rfl, hbody⟩ := hpath.exists_body
  obtain ⟨inner, rfl, -⟩ := hfolder.exists_body
  obtain ⟨rest, hrest⟩ := h
  obtain rfl : inner ++ '/' :: rest = body := by simpa using hrest
  have hparts : (('/' :: (inner ++ '/' :: rest)).splitOn '/').filter (· ≠ []) =
      inner.splitOn '/' ++ rest.splitOn '/' := by
    have hsplit := @List.splitOn_append_cons_self _ _ _ '/' [] (inner ++ '/' :: rest)
    rw [List.nil_append] at hsplit
    rw [hsplit, List.filter_append, List.filter_eq_self.mpr (fun s hs => decide_eq_true (hbody s hs)),
      List.splitOn_append_cons_self]
    rfl
  have hinner : 0 < (inner.splitOn '/').length := List.length_pos_of_ne_nil (List.splitOn_ne_nil _ _)
  have hrest' : 0 < (rest.splitOn '/').length := List.length_pos_of_ne_nil (List.splitOn_ne_nil _ _)
  unfold ancestorFolders
  rw [hparts]
  apply List.mem_map.mpr
  refine ⟨(inner.splitOn '/').length, ?_, ?_⟩
  · rw [List.mem_reverse, List.mem_filter, List.mem_range, List.length_append, decide_eq_true_eq]
    omega
  · rw [List.take_left, List.intercalate_splitOn]

/-! ### What the hooks leave -/

/-- The star is on a folder above `path` that is gone. -/
def Vanished (c : Contents) (driveId path : Text) (r : FavoriteRow) : Prop :=
  r.driveId = driveId ∧ r.kind = .directory ∧ r.path ∈ ancestorFolders path ∧
    c.resolvePathKind driveId r.path ≠ some .directory

instance (c : Contents) (driveId path : Text) (r : FavoriteRow) :
    Decidable (Vanished c driveId path r) :=
  inferInstanceAs (Decidable (_ ∧ _))

/-- The folders are looked at one after the other. -/
theorem foldl_dropFolders (driveId : Text) (folders : List Text) (s : State) :
  folders.foldl (fun s folder =>
      if s.contents.resolvePathKind driveId folder = some .directory then s
      else { s with favorites :=
        s.favorites.filter (fun r => ¬ r.StarsFolder driveId folder) }) s =
    { s with favorites := s.favorites.filter (fun r => ¬ ∃ folder ∈ folders,
        s.contents.resolvePathKind driveId folder ≠ some .directory ∧
          r.StarsFolder driveId folder) }
  := by
  induction folders generalizing s with
  | nil => simp
  | cons folder folders ih =>
      rw [List.foldl_cons, ih]
      split_ifs with hkind
      · congr 1
        apply List.filter_congr
        intro r _
        simp [hkind]
      · congr 1
        rw [List.filter_filter]
        apply List.filter_congr
        intro r _
        simp [hkind, Bool.and_comm]

theorem dropVanishedFolders_eq (driveId path : Text) (s : State) :
  dropVanishedFolders driveId path s =
    { s with favorites := s.favorites.filter (fun r => ¬ Vanished s.contents driveId path r) }
  := by
  unfold dropVanishedFolders
  rw [foldl_dropFolders]
  congr 1
  apply List.filter_congr
  intro r hr
  rw [decide_eq_decide, not_iff_not]
  constructor
  · rintro ⟨folder, hfolder, hkind, hdrive, rfl, hdirectory⟩
    obtain ⟨t, ht, hpath⟩ := List.mem_map.mp (List.mem_dedup.mp hfolder)
    have htest := of_decide_eq_true (List.mem_filter.mp ht).2
    exact ⟨hdrive, hdirectory, hpath ▸ htest.2.2, hkind⟩
  · rintro ⟨hdrive, hdirectory, hancestor, hkind⟩
    refine ⟨r.path, List.mem_dedup.mpr (List.mem_map.mpr ⟨r, ?_, rfl⟩), hkind, hdrive, rfl,
      hdirectory⟩
    exact List.mem_filter.mpr ⟨hr, decide_eq_true ⟨hdrive, hdirectory, hancestor⟩⟩

/-! ### Files -/

section

variable {c c' : Contents} {driveId path d p : Text}

/-- A file is live: it has an object and a row that is not deleted. -/
def Contents.LiveFile (c : Contents) (driveId path : Text) : Prop :=
  (driveId, path) ∈ c.objects ∧
    ∃ f ∈ c.files, f.driveId = driveId ∧ f.path = path ∧ f.isDeleted = false

theorem setLife_live {isDeleted : Bool} {files : List FileLife} :
  (∃ f ∈ setLife driveId path isDeleted files, f.driveId = d ∧ f.path = p ∧
      f.isDeleted = false) ↔
    if d = driveId ∧ p = path then isDeleted = false
    else ∃ f ∈ files, f.driveId = d ∧ f.path = p ∧ f.isDeleted = false
  := by
  unfold setLife
  split_ifs with hfound hkey hkey
  · obtain ⟨rfl, rfl⟩ := hkey
    constructor
    · rintro ⟨f, hf, hdrive, hpath, hlive⟩
      obtain ⟨g, hg, rfl⟩ := List.mem_map.mp hf
      split_ifs at hdrive hpath hlive with hsame
      · exact hlive
      · exact absurd ⟨hdrive, hpath⟩ hsame
    · rintro rfl
      obtain ⟨g, hg, hsame⟩ := hfound
      refine ⟨{ g with isDeleted := false }, List.mem_map.mpr ⟨g, hg, if_pos hsame⟩, ?_⟩
      exact ⟨hsame.1, hsame.2, rfl⟩
  · constructor
    · rintro ⟨f, hf, hdrive, hpath, hlive⟩
      obtain ⟨g, hg, rfl⟩ := List.mem_map.mp hf
      split_ifs at hdrive hpath hlive with hsame
      · exact absurd ⟨hdrive.symm.trans hsame.1, hpath.symm.trans hsame.2⟩ hkey
      · exact ⟨g, hg, hdrive, hpath, hlive⟩
    · rintro ⟨g, hg, hdrive, hpath, hlive⟩
      have hsame : ¬ (g.driveId = driveId ∧ g.path = path) :=
        fun hsame => hkey ⟨hdrive.symm.trans hsame.1, hpath.symm.trans hsame.2⟩
      exact ⟨g, List.mem_map.mpr ⟨g, hg, if_neg hsame⟩, hdrive, hpath, hlive⟩
  · obtain ⟨rfl, rfl⟩ := hkey
    constructor
    · rintro ⟨f, hf, hdrive, hpath, hlive⟩
      rcases List.mem_append.mp hf with hf | hf
      · exact absurd ⟨f, hf, hdrive, hpath⟩ hfound
      · obtain rfl := List.mem_singleton.mp hf
        exact hlive
    · rintro rfl
      exact ⟨_, List.mem_append_right _ (List.mem_singleton_self _), rfl, rfl, rfl⟩
  · constructor
    · rintro ⟨f, hf, hdrive, hpath, hlive⟩
      rcases List.mem_append.mp hf with hf | hf
      · exact ⟨f, hf, hdrive, hpath, hlive⟩
      · obtain rfl := List.mem_singleton.mp hf
        exact absurd ⟨hdrive.symm, hpath.symm⟩ hkey
    · rintro ⟨f, hf, hrest⟩
      exact ⟨f, List.mem_append_left _ hf, hrest⟩

theorem Contents.mem_store :
  (d, p) ∈ (c.store driveId path).objects ↔ (d = driveId ∧ p = path) ∨ (d, p) ∈ c.objects
  := by
  unfold Contents.store
  dsimp only
  split_ifs with hmem
  · constructor
    · exact fun h => .inr h
    · rintro (⟨rfl, rfl⟩ | h)
      · exact hmem
      · exact h
  · rw [List.mem_append, List.mem_singleton, Prod.mk.injEq, or_comm]

theorem Contents.mem_delete :
  (d, p) ∈ (c.delete driveId path).objects ↔ (d, p) ∈ c.objects ∧ ¬ (d = driveId ∧ p = path)
  := by
  unfold Contents.delete
  rw [List.mem_filter, decide_eq_true_eq, Ne, Prod.mk.injEq]

theorem Contents.Consistent.store (h : c.Consistent) :
  (c.store driveId path).Consistent
  := by
  intro d p
  rw [mem_store]
  refine Iff.trans ?_ setLife_live.symm
  split_ifs with hkey
  · exact ⟨fun _ => rfl, fun _ => .inl hkey⟩
  · rw [or_iff_right hkey]
    exact h d p

theorem Contents.Consistent.delete (h : c.Consistent) :
  (c.delete driveId path).Consistent
  := by
  intro d p
  rw [mem_delete]
  refine Iff.trans ?_ setLife_live.symm
  split_ifs with hkey
  · exact ⟨fun hboth => absurd hkey hboth.2, fun hdeleted => nomatch hdeleted⟩
  · rw [and_iff_left hkey]
    exact h d p

/-- Without the file at `path`, a folder is still there or was above it. -/
theorem Contents.IsFolder.or_ancestor {folder : Text} (h : c.IsFolder d folder)
    (hrest : ∀ q, (d, q) ∈ c.objects → (d = driveId ∧ q = path) ∨ (d, q) ∈ c'.objects)
    (hpath : CleanPath path) (hfolder : CleanPath folder) :
  c'.IsFolder d folder ∨ (d = driveId ∧ folder ∈ ancestorFolders path)
  := by
  obtain ⟨q, hq, hstart⟩ := h
  obtain ⟨rfl, rfl⟩ | hq' := hrest q hq
  · exact .inr ⟨rfl, mem_ancestorFolders hpath hfolder hstart⟩
  · exact .inl ⟨q, hq', hstart⟩

end

/-! ### The invariant -/

/-- Stars match the files, except that folder stars in `gone` may be without a folder. -/
structure StarsMatch (gone : Text → Text → Prop) (s : State) : Prop where
  consistent : s.contents.Consistent
  clean : ∀ d p, (d, p) ∈ s.contents.objects → CleanPath p
  keyed : (s.favorites.map FavoriteRow.key).Nodup
  path : ∀ r ∈ s.favorites, CleanPath r.path
  file : ∀ r ∈ s.favorites, r.kind = .file → (r.driveId, r.path) ∈ s.contents.objects
  folder : ∀ r ∈ s.favorites, r.kind = .directory →
    s.contents.IsFolder r.driveId r.path ∨ gone r.driveId r.path

/-- Every star names something. -/
abbrev StarInv (s : State) : Prop :=
  StarsMatch (fun _ _ => False) s

section

variable {gone : Text → Text → Prop} {s : State}

theorem StarsMatch.filter (h : StarsMatch gone s) (test : FavoriteRow → Bool) :
  StarsMatch gone { s with favorites := s.favorites.filter test }
  where
  consistent := h.consistent
  clean := h.clean
  keyed := h.keyed.sublist (List.filter_sublist.map _)
  path r hr := h.path r (List.mem_of_mem_filter hr)
  file r hr := h.file r (List.mem_of_mem_filter hr)
  folder r hr := h.folder r (List.mem_of_mem_filter hr)

/-- The folders above `path` that are gone lose their stars. -/
theorem StarsMatch.dropVanishedFolders {driveId path : Text}
    (h : StarsMatch (fun d p => d = driveId ∧ p ∈ ancestorFolders path) s) :
  StarInv (dropVanishedFolders driveId path s)
  := by
  rw [dropVanishedFolders_eq]
  obtain ⟨hconsistent, hclean, hkeyed, hpath, hfile, hfolder⟩ := h.filter
    (fun r => ¬ Vanished s.contents driveId path r)
  refine ⟨hconsistent, hclean, hkeyed, hpath, hfile, ?_⟩
  intro r hr hkind
  obtain hthere | ⟨rfl, hancestor⟩ := hfolder r hr hkind
  · exact .inl hthere
  · left
    by_contra hgone
    obtain ⟨hmem, htest⟩ := List.mem_filter.mp hr
    apply of_decide_eq_true htest
    refine ⟨rfl, hkind, hancestor, fun hdirectory => hgone ?_⟩
    exact (Contents.resolvePathKind_directory_iff hconsistent
      (h.path r hmem).normalizePrefix_eq).mp hdirectory

/-! ### Each operation -/

theorem StarInv.empty (reportsDeleted : Bool) :
  StarInv (State.empty reportsDeleted)
  := by
  constructor
  · intro d p
    constructor
    · rintro ⟨⟩
    · rintro ⟨f, ⟨⟩, -⟩
  · rintro d p ⟨⟩
  · exact List.nodup_nil
  · rintro r ⟨⟩
  · rintro r ⟨⟩
  · rintro r ⟨⟩

/-- The star of an upsert takes its key's place. -/
theorem StarInv.upsertFavorite (h : StarInv s) {row : FavoriteRow} (hpath : CleanPath row.path)
    (hkind : s.contents.resolvePathKind row.driveId row.path = some row.kind) :
  StarInv { s with favorites := upsertFavorite row s.favorites }
  := by
  have hfile : row.kind = .file → (row.driveId, row.path) ∈ s.contents.objects := by
    intro hfile
    rw [hfile] at hkind
    exact Contents.mem_objects_of_resolvePathKind hkind
  have hfolder : row.kind = .directory → s.contents.IsFolder row.driveId row.path := by
    intro hdirectory
    rw [hdirectory] at hkind
    exact (Contents.resolvePathKind_directory_iff h.consistent hpath.normalizePrefix_eq).mp hkind
  have hmem : ∀ r ∈ AgentFs.Favorites.upsertFavorite row s.favorites,
      r ∈ s.favorites ∨ (r.key = row.key ∧ r.kind = row.kind) := by
    intro r hr
    unfold AgentFs.Favorites.upsertFavorite at hr
    split_ifs at hr
    · obtain ⟨t, ht, rfl⟩ := List.mem_map.mp hr
      split_ifs with hkey
      · exact .inr ⟨hkey, rfl⟩
      · exact .inl ht
    · rcases List.mem_append.mp hr with hr | hr
      · exact .inl hr
      · obtain rfl := List.mem_singleton.mp hr
        exact .inr ⟨rfl, rfl⟩
  have hkeyed : ((AgentFs.Favorites.upsertFavorite row s.favorites).map
      FavoriteRow.key).Nodup := by
    unfold AgentFs.Favorites.upsertFavorite
    split_ifs with hfound
    · have hkeys : (s.favorites.map (fun r =>
          if r.key = row.key then { r with kind := row.kind } else r)).map FavoriteRow.key =
            s.favorites.map FavoriteRow.key := by
        rw [List.map_map]
        apply List.map_congr_left
        intro r _
        rw [Function.comp_apply]
        split_ifs
        · rfl
        · rfl
      rw [hkeys]
      exact h.keyed
    · rw [List.map_append, List.nodup_append]
      refine ⟨h.keyed, List.nodup_singleton _, ?_⟩
      intro key hkey key' hkey' heq
      obtain ⟨r, hr, rfl⟩ := List.mem_map.mp hkey
      obtain rfl := List.mem_singleton.mp hkey'
      exact hfound ⟨r, hr, heq⟩
  refine ⟨h.consistent, h.clean, hkeyed, ?_, ?_, ?_⟩
  · intro r hr
    obtain hold | ⟨hkey, -⟩ := hmem r hr
    · exact h.path r hold
    · obtain ⟨-, -, heq⟩ : r.userId = row.userId ∧ r.driveId = row.driveId ∧
          r.path = row.path := by simpa [FavoriteRow.key] using hkey
      rw [heq]
      exact hpath
  · intro r hr hrfile
    obtain hold | ⟨hkey, hsame⟩ := hmem r hr
    · exact h.file r hold hrfile
    · obtain ⟨-, hdrive, heq⟩ : r.userId = row.userId ∧ r.driveId = row.driveId ∧
          r.path = row.path := by simpa [FavoriteRow.key] using hkey
      rw [hdrive, heq]
      exact hfile (hsame.symm.trans hrfile)
  · intro r hr hrfolder
    obtain hold | ⟨hkey, hsame⟩ := hmem r hr
    · exact h.folder r hold hrfolder
    · obtain ⟨-, hdrive, heq⟩ : r.userId = row.userId ∧ r.driveId = row.driveId ∧
          r.path = row.path := by simpa [FavoriteRow.key] using hkey
      rw [hdrive, heq]
      exact .inl (hfolder (hsame.symm.trans hrfolder))

theorem StarInv.favoriteAdd (h : StarInv s) {ctx : OpContext} {path : Text} {now : Nat}
    {reply : Reply} {s' : State} (hclean : CleanPath (normalizePath path))
    (hadd : favoriteAdd ctx path now s = .ok (reply, s')) :
  StarInv s'
  := by
  unfold AgentFs.Favorites.favoriteAdd at hadd
  dsimp only at hadd
  cases hinside : assertPathInsideDrive (normalizePath path) with
  | error e =>
      rw [hinside] at hadd
      cases hadd
  | ok u =>
      rw [hinside] at hadd
      change (if normalizePath path = ['/'] then _ else _) = _ at hadd
      split_ifs at hadd with hroot
      cases hkind : s.contents.resolvePathKind ctx.driveId (normalizePath path) with
      | none =>
          rw [hkind] at hadd
          cases hadd
      | some kind =>
          rw [hkind] at hadd
          cases hadd
          exact h.upsertFavorite hclean hkind

theorem StarInv.write (h : StarInv s) {ctx : OpContext} {path : Text}
    (hclean : CleanPath (normalizePath path)) :
  StarInv (write ctx path s)
  where
  consistent := h.consistent.store
  clean d p hp := by
    obtain ⟨-, rfl⟩ | hp := Contents.mem_store.mp hp
    · exact hclean
    · exact h.clean d p hp
  keyed := h.keyed
  path := h.path
  file r hr hkind := Contents.mem_store.mpr (.inr (h.file r hr hkind))
  folder r hr hkind := by
    obtain ⟨p, hp, hstart⟩ := (h.folder r hr hkind).resolve_right id
    exact .inl ⟨p, Contents.mem_store.mpr (.inr hp), hstart⟩

theorem StarInv.rm (h : StarInv s) {ctx : OpContext} {path : Text}
    (hclean : CleanPath (normalizePath path)) :
  StarInv (rm ctx path s)
  := by
  apply StarsMatch.dropVanishedFolders
  refine ⟨h.consistent.delete, ?_, h.keyed.sublist (List.filter_sublist.map _), ?_, ?_, ?_⟩
  · intro d p hp
    exact h.clean d p (Contents.mem_delete.mp hp).1
  · intro r hr
    exact h.path r (List.mem_of_mem_filter hr)
  · intro r hr hkind
    obtain ⟨hmem, htest⟩ := List.mem_filter.mp hr
    refine Contents.mem_delete.mpr ⟨h.file r hmem hkind, ?_⟩
    rintro ⟨hdrive, hpath⟩
    exact of_decide_eq_true htest ⟨hdrive, hpath, hkind⟩
  · intro r hr hkind
    have hmem := List.mem_of_mem_filter hr
    have hthere := (h.folder r hmem hkind).resolve_right id
    apply hthere.or_ancestor _ hclean (h.path r hmem)
    intro q hq
    by_cases hkey : r.driveId = ctx.driveId ∧ q = normalizePath path
    · exact .inl hkey
    · exact .inr (Contents.mem_delete.mpr ⟨hq, hkey⟩)

/-- The star after a move to `target`. -/
def FavoriteRow.moved (r : FavoriteRow) (driveId source target : Text) : FavoriteRow :=
  if r.StarsFile driveId source then { r with path := target } else r

/-- What a move does. -/
theorem mv_ok {ctx : OpContext} {source target : Text} {s' : State}
    (hmv : mv ctx source target s = .ok s') :
  let source := normalizePath source
  let target := normalizePath target
  source ≠ target ∧ (ctx.driveId, source) ∈ s.contents.objects ∧
    s' = dropVanishedFolders ctx.driveId source
      { contents := (s.contents.store ctx.driveId target).delete ctx.driveId source
        favorites := (s.favorites.filter (fun r => ¬ (r.StarsFile ctx.driveId source ∧
          ∃ t ∈ s.favorites, t.userId = r.userId ∧ t.driveId = ctx.driveId ∧
            t.path = target))).map (fun r => r.moved ctx.driveId source target) }
  := by
  unfold mv at hmv
  dsimp only at hmv ⊢
  split_ifs at hmv with hsame hmissing
  cases hmv
  exact ⟨hsame, hmissing, rfl⟩

section

variable {driveId source target : Text} {r t : FavoriteRow}

theorem FavoriteRow.moved_userId :
  (r.moved driveId source target).userId = r.userId
  := by
  unfold FavoriteRow.moved
  split_ifs
  · rfl
  · rfl

theorem FavoriteRow.moved_kind :
  (r.moved driveId source target).kind = r.kind
  := by
  unfold FavoriteRow.moved
  split_ifs
  · rfl
  · rfl

theorem FavoriteRow.moved_driveId :
  (r.moved driveId source target).driveId = r.driveId
  := by
  unfold FavoriteRow.moved
  split_ifs
  · rfl
  · rfl

/-- Stars of different keys keep different keys, as none moves to a key that is taken. -/
theorem FavoriteRow.moved_inj (hkey : (r.moved driveId source target).key =
      (t.moved driveId source target).key)
    (hr : ¬ (r.StarsFile driveId source ∧
      (t.userId = r.userId ∧ t.driveId = driveId ∧ t.path = target)))
    (ht : ¬ (t.StarsFile driveId source ∧
      (r.userId = t.userId ∧ r.driveId = driveId ∧ r.path = target))) :
  r.key = t.key
  := by
  have huser : r.userId = t.userId := by
    have hfirst := congrArg Prod.fst hkey
    rwa [FavoriteRow.key, FavoriteRow.key, moved_userId, moved_userId] at hfirst
  have hdrive : r.driveId = t.driveId := by
    have hsecond := congrArg (fun k => k.2.1) hkey
    dsimp only [FavoriteRow.key] at hsecond
    rwa [moved_driveId, moved_driveId] at hsecond
  have hpath : (r.moved driveId source target).path = (t.moved driveId source target).path :=
    congrArg (fun k => k.2.2) hkey
  unfold FavoriteRow.moved at hpath
  split_ifs at hpath with hrfile htfile htfile
  · unfold FavoriteRow.key
    rw [huser, hdrive, hrfile.2.1, htfile.2.1]
  · exact absurd ⟨hrfile, huser.symm, hdrive.symm.trans hrfile.1, hpath.symm⟩ hr
  · exact absurd ⟨htfile, huser, hdrive.trans htfile.1, hpath⟩ ht
  · unfold FavoriteRow.key
    rw [huser, hdrive, hpath]

end

theorem StarInv.mv (h : StarInv s) {ctx : OpContext} {source target : Text} {s' : State}
    (hsource : CleanPath (normalizePath source)) (htarget : CleanPath (normalizePath target))
    (hmv : mv ctx source target s = .ok s') :
  StarInv s'
  := by
  obtain ⟨hne, -, rfl⟩ := mv_ok hmv
  generalize normalizePath source = source at *
  generalize normalizePath target = target at *
  have hmem : ∀ q d, ((d, q) ∈ ((s.contents.store ctx.driveId target).delete ctx.driveId
      source).objects ↔ ((d = ctx.driveId ∧ q = target) ∨ (d, q) ∈ s.contents.objects) ∧
        ¬ (d = ctx.driveId ∧ q = source)) := by
    intro q d
    rw [Contents.mem_delete, Contents.mem_store]
  apply StarsMatch.dropVanishedFolders
  refine ⟨h.consistent.store.delete, ?_, ?_, ?_, ?_, ?_⟩
  · intro d p hp
    obtain ⟨⟨-, rfl⟩ | hp, -⟩ := (hmem p d).mp hp
    · exact htarget
    · exact h.clean d p hp
  · have hdistinct : s.favorites.Pairwise (fun r t => r.key ≠ t.key) :=
      List.pairwise_map.mp h.keyed
    apply List.pairwise_map.mpr
    apply List.pairwise_map.mpr
    apply (hdistinct.sublist List.filter_sublist).imp_of_mem
    intro r t hr ht hne heq
    obtain ⟨hr, hrkept⟩ := List.mem_filter.mp hr
    obtain ⟨ht, htkept⟩ := List.mem_filter.mp ht
    apply hne
    apply FavoriteRow.moved_inj heq
    · rintro ⟨hfile, hother⟩
      exact of_decide_eq_true hrkept ⟨hfile, t, ht, hother⟩
    · rintro ⟨hfile, hother⟩
      exact of_decide_eq_true htkept ⟨hfile, r, hr, hother⟩
  · intro r' hr'
    obtain ⟨r, hr, rfl⟩ := List.mem_map.mp hr'
    unfold FavoriteRow.moved
    split_ifs
    · exact htarget
    · exact h.path r (List.mem_of_mem_filter hr)
  · intro r' hr' hkind
    obtain ⟨r, hr, rfl⟩ := List.mem_map.mp hr'
    rw [FavoriteRow.moved_kind] at hkind
    have hobject := h.file r (List.mem_of_mem_filter hr) hkind
    unfold FavoriteRow.moved
    split_ifs with hfile
    · exact (hmem _ _).mpr ⟨.inl ⟨hfile.1, rfl⟩, fun hsame => hne hsame.2.symm⟩
    · exact (hmem _ _).mpr ⟨.inr hobject, fun hsame => hfile ⟨hsame.1, hsame.2, hkind⟩⟩
  · intro r' hr' hkind
    obtain ⟨r, hr, rfl⟩ := List.mem_map.mp hr'
    rw [FavoriteRow.moved_kind] at hkind
    have hstays : r.moved ctx.driveId source target = r := by
      unfold FavoriteRow.moved
      apply if_neg
      rintro ⟨-, -, hfile⟩
      rw [hkind] at hfile
      cases hfile
    rw [hstays]
    have hr := List.mem_of_mem_filter hr
    apply ((h.folder r hr hkind).resolve_right id).or_ancestor _ hsource (h.path r hr)
    intro q hq
    by_cases hkey : r.driveId = ctx.driveId ∧ q = source
    · exact .inl hkey
    · exact .inr ((hmem _ _).mpr ⟨.inr hq, hkey⟩)

end

/-! ### What a move does to the stars -/

theorem FavoriteRow.key_eq_iff {r : FavoriteRow} {userId driveId path : Text} :
  r.key = (userId, driveId, path) ↔ r.userId = userId ∧ r.driveId = driveId ∧ r.path = path
  := by
  unfold FavoriteRow.key
  rw [Prod.mk.injEq, Prod.mk.injEq]

/-- The user has a star of the kind on the path. -/
def State.Stars (s : State) (userId driveId path : Text) (kind : PathKind) : Prop :=
  ∃ r ∈ s.favorites, r.key = (userId, driveId, path) ∧ r.kind = kind

/-- The user has a star on the path. -/
def State.Starred (s : State) (userId driveId path : Text) : Prop :=
  ∃ r ∈ s.favorites, r.key = (userId, driveId, path)

instance (s : State) (userId driveId path : Text) : Decidable (s.Starred userId driveId path) :=
  inferInstanceAs (Decidable (∃ r ∈ s.favorites, _))

/-- The stars of a user after a move.  The star on the file moves, unless the user has one on the
target; a folder star on the source stays.  A star on the target stays, but a folder star only
while the target still is a folder: nothing is said of the user who had the file starred as well. -/
structure StarsMoved (s s' : State) (driveId source target userId : Text) : Prop where
  file : ¬ s'.Stars userId driveId source .file
  folder : s'.Stars userId driveId source .directory ↔ s.Stars userId driveId source .directory
  target : ¬ (s.Stars userId driveId source .file ∧ s.Stars userId driveId target .directory ∧
      ¬ s'.contents.IsFolder driveId target) →
    (s'.Starred userId driveId target ↔
      s.Stars userId driveId source .file ∨ s.Stars userId driveId target .file ∨
        (s.Stars userId driveId target .directory ∧ s'.contents.IsFolder driveId target))

section

variable {s s' : State} {ctx : OpContext} {source target : Text}

/-- The stars after a move. -/
theorem mem_favorites_mv (hmv : mv ctx source target s = .ok s') {r' : FavoriteRow} :
  let source := normalizePath source
  let target := normalizePath target
  r' ∈ s'.favorites ↔
    (∃ r ∈ s.favorites, ¬ (r.StarsFile ctx.driveId source ∧ ∃ t ∈ s.favorites,
        t.userId = r.userId ∧ t.driveId = ctx.driveId ∧ t.path = target) ∧
      r.moved ctx.driveId source target = r') ∧
    ¬ Vanished s'.contents ctx.driveId source r'
  := by
  obtain ⟨-, -, rfl⟩ := mv_ok hmv
  dsimp only
  rw [dropVanishedFolders_eq, List.mem_filter, decide_eq_true_eq, List.mem_map]
  refine and_congr_left' ?_
  constructor
  · rintro ⟨r, hr, hmoved⟩
    obtain ⟨hr, hkept⟩ := List.mem_filter.mp hr
    exact ⟨r, hr, of_decide_eq_true hkept, hmoved⟩
  · rintro ⟨r, hr, hkept, hmoved⟩
    exact ⟨r, List.mem_filter.mpr ⟨hr, decide_eq_true hkept⟩, hmoved⟩

/-- A star that does not move stays, a folder star if its folder is still there. -/
theorem stays_mv (hmv : mv ctx source target s = .ok s') (hinv' : StarInv s') {r : FavoriteRow}
    (hr : r ∈ s.favorites) (hpath : CleanPath r.path)
    (hnot : ¬ r.StarsFile ctx.driveId (normalizePath source))
    (hfolder : r.driveId = ctx.driveId → r.kind = .directory →
      s'.contents.IsFolder ctx.driveId r.path) :
  r ∈ s'.favorites
  := by
  apply (mem_favorites_mv hmv).mpr
  refine ⟨⟨r, hr, fun hboth => hnot hboth.1, if_neg hnot⟩, ?_⟩
  rintro ⟨hdrive, hkind, -, hgone⟩
  apply hgone
  rw [Contents.resolvePathKind_directory_iff hinv'.consistent hpath.normalizePrefix_eq]
  exact hfolder hdrive hkind

/-- A move takes the stars along. -/
theorem starsMoved_mv (h : StarInv s) (hsource : CleanPath (normalizePath source))
    (htarget : CleanPath (normalizePath target)) (hmv : mv ctx source target s = .ok s')
    (userId : Text) :
  StarsMoved s s' ctx.driveId (normalizePath source) (normalizePath target) userId
  := by
  have hinv' := h.mv hsource htarget hmv
  obtain ⟨hne, -, heq⟩ := mv_ok hmv
  have hmem := @mem_favorites_mv s s' ctx source target hmv
  have hstays := @stays_mv s s' ctx source target hmv hinv'
  have hobjects : ∀ q, (ctx.driveId, q) ∈ s.contents.objects → q ≠ normalizePath source →
      (ctx.driveId, q) ∈ s'.contents.objects := by
    intro q hq hqne
    rw [heq, dropVanishedFolders_eq]
    exact Contents.mem_delete.mpr ⟨Contents.mem_store.mpr (.inr hq), fun hsame => hqne hsame.2⟩
  dsimp only at hmem
  generalize normalizePath source = source at *
  generalize normalizePath target = target at *
  constructor
  · rintro ⟨r', hr', hkey, hkind⟩
    obtain ⟨⟨r, hr, -, rfl⟩, -⟩ := hmem.mp hr'
    obtain ⟨-, hdrive, hpath⟩ := FavoriteRow.key_eq_iff.mp hkey
    unfold FavoriteRow.moved at hdrive hpath hkind
    split_ifs at hdrive hpath hkind with hfile
    · exact hne hpath.symm
    · exact hfile ⟨hdrive, hpath, hkind⟩
  · constructor
    · rintro ⟨r', hr', hkey, hkind⟩
      obtain ⟨⟨r, hr, -, rfl⟩, -⟩ := hmem.mp hr'
      obtain ⟨-, -, hpath⟩ := FavoriteRow.key_eq_iff.mp hkey
      rw [FavoriteRow.moved_kind] at hkind
      unfold FavoriteRow.moved at hkey hpath
      split_ifs at hkey hpath
      · exact absurd hpath.symm hne
      · exact ⟨r, hr, hkey, hkind⟩
    · rintro ⟨r, hr, hkey, hkind⟩
      obtain ⟨-, hdrive, hpath⟩ := FavoriteRow.key_eq_iff.mp hkey
      refine ⟨r, hstays hr (h.path r hr) ?_ ?_, hkey, hkind⟩
      · rintro ⟨-, -, hfile⟩
        rw [hkind] at hfile
        cases hfile
      · intro _ _
        obtain ⟨q, hq, hstart⟩ := (h.folder r hr hkind).resolve_right id
        rw [hdrive] at hq
        refine ⟨q, hobjects q hq ?_, hstart⟩
        rintro rfl
        have hlength := hstart.length_le
        rw [hpath, List.length_append, List.length_singleton] at hlength
        omega
  · intro hregular
    constructor
    · rintro ⟨r', hr', hkey⟩
      obtain ⟨⟨r, hr, -, rfl⟩, -⟩ := hmem.mp hr'
      obtain ⟨huser, hdrive, hpath⟩ := FavoriteRow.key_eq_iff.mp hkey
      have hfolder' := hinv'.folder _ hr'
      unfold FavoriteRow.moved at huser hdrive hpath hkey hfolder'
      split_ifs at huser hdrive hpath hkey hfolder' with hfile
      · left
        exact ⟨r, hr, FavoriteRow.key_eq_iff.mpr ⟨huser, hdrive, hfile.2.1⟩, hfile.2.2⟩
      · right
        cases hkind : r.kind with
        | file => exact .inl ⟨r, hr, hkey, hkind⟩
        | directory =>
            refine .inr ⟨⟨r, hr, hkey, hkind⟩, ?_⟩
            have hthere := (hfolder' hkind).resolve_right id
            rwa [hdrive, hpath] at hthere
    · have hkeeps : ∀ t ∈ s.favorites, t.key = (userId, ctx.driveId, target) →
          (t.kind = .directory → s'.contents.IsFolder ctx.driveId target) →
          s'.Starred userId ctx.driveId target := by
        intro t ht hkey hfolder
        obtain ⟨-, -, hpath⟩ := FavoriteRow.key_eq_iff.mp hkey
        refine ⟨t, hstays ht (h.path t ht) ?_ ?_, hkey⟩
        · rintro ⟨-, hsame, -⟩
          exact hne (hsame.symm.trans hpath)
        · intro _ hkind
          rw [hpath]
          exact hfolder hkind
      rintro (⟨r, hr, hkey, hkind⟩ | ⟨t, ht, hkey, hkind⟩ | ⟨⟨t, ht, hkey, hkind⟩, hfolder⟩)
      · obtain ⟨huser, hdrive, hpath⟩ := FavoriteRow.key_eq_iff.mp hkey
        by_cases hother : ∃ t ∈ s.favorites, t.userId = r.userId ∧ t.driveId = ctx.driveId ∧
            t.path = target
        · obtain ⟨t, ht, htuser, htdrive, htpath⟩ := hother
          have htkey : t.key = (userId, ctx.driveId, target) :=
            FavoriteRow.key_eq_iff.mpr ⟨htuser.trans huser, htdrive, htpath⟩
          apply hkeeps t ht htkey
          intro htkind
          by_contra hgone
          exact hregular ⟨⟨r, hr, hkey, hkind⟩, ⟨t, ht, htkey, htkind⟩, hgone⟩
        · have hfile : r.StarsFile ctx.driveId source := ⟨hdrive, hpath, hkind⟩
          refine ⟨{ r with path := target }, hmem.mpr ⟨⟨r, hr, fun hboth => hother hboth.2,
            if_pos hfile⟩, ?_⟩, FavoriteRow.key_eq_iff.mpr ⟨huser, hdrive, rfl⟩⟩
          rintro ⟨-, hdirectory, -⟩
          exact absurd (hkind.symm.trans hdirectory) (by decide)
      · apply hkeeps t ht hkey
        intro hdirectory
        exact absurd (hkind.symm.trans hdirectory) (by decide)
      · exact hkeeps t ht hkey (fun _ => hfolder)

end

/-! ### Runs -/

/-- The paths of a request. -/
def Request.paths : Request → List Text
  | .favoriteAdd path _ | .favoriteRemove path | .write path | .rm path => [path]
  | .mv source target => [source, target]

/-- The paths of a request have no empty segments. -/
def Request.Clean (request : Request) : Prop :=
  ∀ path ∈ request.paths, CleanPath (normalizePath path)

instance (request : Request) : Decidable request.Clean :=
  inferInstanceAs (Decidable (∀ path ∈ request.paths, _))

theorem StarInv.step {s : State} (h : StarInv s) {call : OpContext × Request}
    (hclean : call.2.Clean) :
  StarInv (s.step call)
  := by
  obtain ⟨ctx, request⟩ := call
  unfold State.step
  cases hperform : perform ctx request s with
  | error e => exact h
  | ok result =>
      obtain ⟨reply, s'⟩ := result
      cases request with
      | favoriteAdd path now =>
          exact h.favoriteAdd (hclean path List.mem_cons_self) hperform
      | favoriteRemove path =>
          cases hperform
          exact h.filter _
      | write path =>
          cases hperform
          exact h.write (hclean path List.mem_cons_self)
      | rm path =>
          cases hperform
          exact h.rm (hclean path List.mem_cons_self)
      | mv source target =>
          cases hmv : Favorites.mv ctx source target s with
          | error e =>
              unfold perform at hperform
              dsimp only at hperform
              rw [hmv] at hperform
              cases hperform
          | ok s₁ =>
              unfold perform at hperform
              dsimp only at hperform
              rw [hmv] at hperform
              cases hperform
              exact h.mv (hclean source List.mem_cons_self)
                (hclean target (List.mem_cons_of_mem _ List.mem_cons_self)) hmv

theorem StarInv.run {s : State} (h : StarInv s) {calls : List (OpContext × Request)}
    (hclean : ∀ call ∈ calls, call.2.Clean) :
  StarInv (s.run calls)
  := by
  induction calls generalizing s with
  | nil => exact h
  | cons call calls ih =>
      apply ih (h.step (hclean call List.mem_cons_self))
      intro later hlater
      exact hclean later (List.mem_cons_of_mem _ hlater)

/-- The stars of a state name what is there. -/
structure StarsNameLive (s : State) : Prop where
  one : (s.favorites.map FavoriteRow.key).Nodup
  file : ∀ r ∈ s.favorites, r.kind = .file → s.contents.LiveFile r.driveId r.path
  folder : ∀ r ∈ s.favorites, r.kind = .directory →
    ∃ path, s.contents.LiveFile r.driveId path ∧ r.path ++ ['/'] <+: path

theorem StarInv.starsNameLive {s : State} (h : StarInv s) :
  StarsNameLive s
  where
  one := h.keyed
  file r hr hkind := by
    have hobject := h.file r hr hkind
    exact ⟨hobject, (h.consistent _ _).mp hobject⟩
  folder r hr hkind := by
    obtain ⟨path, hobject, hstart⟩ := (h.folder r hr hkind).resolve_right id
    exact ⟨path, ⟨hobject, (h.consistent _ _).mp hobject⟩, hstart⟩

/-- In every sequential run there is one star at most for a user and a path, every star names a live
file or a folder with one, and a move takes the stars along. -/
theorem stars_in_step {reportsDeleted : Bool} {calls : List (OpContext × Request)}
    (hclean : ∀ call ∈ calls, call.2.Clean) :
  let s := (State.empty reportsDeleted).run calls
  StarsNameLive s ∧
    ∀ (ctx : OpContext) (source target : Text) (s' : State),
      (Request.mv source target).Clean → mv ctx source target s = .ok s' →
      ∀ userId, StarsMoved s s' ctx.driveId (normalizePath source) (normalizePath target) userId
  := by
  have hinv := (StarInv.empty reportsDeleted).run hclean
  refine ⟨hinv.starsNameLive, ?_⟩
  intro ctx source target s' hpaths hmv userId
  exact starsMoved_mv hinv (hpaths source List.mem_cons_self)
    (hpaths target (List.mem_cons_of_mem _ List.mem_cons_self)) hmv userId

/-- A user of a drive on a bucket. -/
def sampleUser (userId : String) : OpContext :=
  ⟨"org".toList, "drive".toList, userId.toList, .s3 true⟩

/-- The owner stars a file and its folder, the guest the file. -/
def sampleStars : List (OpContext × Request) :=
  [ (sampleUser "owner", .write "/docs/a.md".toList),
    (sampleUser "owner", .favoriteAdd "/docs".toList 1),
    (sampleUser "owner", .favoriteAdd "/docs/a.md".toList 2),
    (sampleUser "guest", .favoriteAdd "docs/a.md".toList 3) ]

/-- Both stars on the file move; the folder is empty and loses its star. -/
theorem stars_in_step_sampleStars :
  let s := (State.empty true).run sampleStars
  let s' := s.step (sampleUser "guest", .mv "/docs/a.md".toList "/b.md".toList)
  StarsNameLive s ∧ s'.favorites.map (fun r => (r.userId, r.path)) =
      [("owner".toList, "/b.md".toList), ("guest".toList, "/b.md".toList)] ∧
    ∀ userId, StarsMoved s s' "drive".toList "/docs/a.md".toList "/b.md".toList userId
  := by
  intro s s'
  have hrun := @stars_in_step true sampleStars (by decide +kernel)
  refine ⟨hrun.1, by decide +kernel, ?_⟩
  exact hrun.2 (sampleUser "guest") "/docs/a.md".toList "/b.md".toList s' (by decide +kernel)
    (by decide +kernel)

/-- The stars of a user follow a move as they are. -/
def StarsCarried (s s' : State) (driveId source target userId : Text) : Prop :=
  (s'.Starred userId driveId target ↔
      s.Starred userId driveId source ∨ s.Starred userId driveId target) ∧
    ¬ s'.Starred userId driveId source

/-- A path names a file and a folder, and the star on it is on the folder. -/
def sampleTwofold : List (OpContext × Request) :=
  [ (sampleUser "owner", .write "/a".toList),
    (sampleUser "owner", .write "/a/b".toList),
    (sampleUser "owner", .favoriteAdd "/a".toList 1) ]

/-- The star stays where it is when the file moves. -/
theorem folder_star_stays :
  let s := (State.empty true).run sampleTwofold
  (∀ call ∈ sampleTwofold, call.2.Clean) ∧
    (Request.mv "/a".toList "/c".toList).Clean ∧
    ∃ s', mv (sampleUser "owner") "/a".toList "/c".toList s = .ok s' ∧
      ¬ StarsCarried s s' "drive".toList "/a".toList "/c".toList "owner".toList
  := by
  intro s
  refine ⟨by decide +kernel, by decide +kernel, _, rfl, ?_⟩
  rintro ⟨-, hgone⟩
  revert hgone
  decide +kernel

end AgentFs.Favorites

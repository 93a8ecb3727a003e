import AgentFs.Lib.PrefixRange
import AgentFs.Paths
import Mathlib.Data.List.Dedup

/-!
# What a path names

`resolvePathKind` tells files from folders.  A folder has no object of its own: it is there while
an object lies under it.  A versioned bucket may go on reporting the folders of deleted objects,
so a reported folder counts only with a live row of the `files` table or an object under it.
-/

namespace AgentFs.Favorites

inductive PathKind where
  | file
  | directory
  deriving DecidableEq, Repr

/-- What the `files` table says of the life of a file. -/
structure FileLife where
  driveId : Text
  path : Text
  isDeleted : Bool
  deriving DecidableEq, Repr

/-- The storage and the `files` table.  Objects are named by their drive and their path in it. -/
structure Contents where
  objects : List (Text × Text)
  /-- Objects that were deleted. -/
  deleted : List (Text × Text)
  /-- Whether a listing reports the folders of deleted objects. -/
  reportsDeleted : Bool
  files : List FileLife
  deriving DecidableEq, Repr

/-- The rests of the paths of a drive that start with `dir`. -/
def listObjects (stored : List (Text × Text)) (driveId dir : Text) : List Text :=
  (stored.filter (fun o => o.1 = driveId ∧ dir <+: o.2)).map (fun o => o.2.drop dir.length)

/-- One level of a listing. -/
structure Level where
  objects : List Text
  prefixes : List Text
  deriving DecidableEq, Repr

namespace Contents

variable (c : Contents)

/-- The listing of `dir` with the delimiter `/`. -/
def listLevel (driveId dir : Text) : Level :=
  let rests := listObjects c.objects driveId dir
  let reported :=
    if c.reportsDeleted then rests ++ listObjects c.deleted driveId dir else rests
  { objects := (rests.filter ('/' ∉ ·)).map (dir ++ ·)
    prefixes := ((reported.filter ('/' ∈ ·)).map
      (fun rest => dir ++ rest.takeWhile (· ≠ '/') ++ ['/'])).dedup }

/-- Whether a file that is not deleted exists under the directory prefix `dir`. -/
def HasLiveFileRow (driveId dir : Text) : Prop :=
  ∃ f ∈ c.files, f.driveId = driveId ∧ ¬ f.path < dir ∧ f.path < dir.dropLast ++ ['0'] ∧
    f.isDeleted = false

instance (driveId dir : Text) : Decidable (c.HasLiveFileRow driveId dir) :=
  inferInstanceAs (Decidable (∃ f ∈ c.files, _))

/-- The folder prefixes that still hold a live file, in input order. -/
def liveFolderPrefixes (driveId : Text) (prefixes : List Text) : List Text :=
  prefixes.filter (fun dir =>
    c.HasLiveFileRow driveId dir ∨ listObjects c.objects driveId dir ≠ [])

/-- What a normalized path names in storage right now; a folder wins over a file. -/
def resolvePathKind (driveId path : Text) : Option PathKind :=
  let level := c.listLevel driveId (normalizePrefix path)
  if level.objects ≠ [] then some .directory
  else if c.liveFolderPrefixes driveId level.prefixes ≠ [] then some .directory
  else if path ≠ ['/'] ∧ (driveId, path) ∈ c.objects then some .file
  else none

/-- The files that are not deleted are those with an object. -/
def Consistent : Prop :=
  ∀ driveId path, (driveId, path) ∈ c.objects ↔
    ∃ f ∈ c.files, f.driveId = driveId ∧ f.path = path ∧ f.isDeleted = false

/-- A file lies under the path. -/
def IsFolder (driveId path : Text) : Prop :=
  ∃ p, (driveId, p) ∈ c.objects ∧ path ++ ['/'] <+: p

end Contents

theorem mem_listObjects {stored : List (Text × Text)} {driveId dir rest : Text} :
  rest ∈ listObjects stored driveId dir ↔ (driveId, dir ++ rest) ∈ stored
  := by
  unfold listObjects
  constructor
  · intro h
    obtain ⟨o, ho, rfl⟩ := List.mem_map.mp h
    obtain ⟨hstored, htest⟩ := List.mem_filter.mp ho
    obtain ⟨rfl, q, hq⟩ := of_decide_eq_true htest
    obtain ⟨drive, p⟩ := o
    dsimp only at hq ⊢
    subst hq
    rw [List.drop_left]
    exact hstored
  · intro h
    apply List.mem_map.mpr
    refine ⟨(driveId, dir ++ rest), List.mem_filter.mpr ⟨h, ?_⟩, List.drop_left⟩
    exact decide_eq_true ⟨rfl, List.prefix_append _ _⟩

namespace Contents

variable {c : Contents} {driveId path dir : Text}

/-- A live row is under a folder prefix when the object of its file is. -/
theorem hasLiveFileRow_iff (hc : c.Consistent) :
  c.HasLiveFileRow driveId (dir ++ ['/']) ↔ c.IsFolder driveId dir
  := by
  unfold HasLiveFileRow IsFolder
  rw [List.dropLast_concat]
  constructor
  · rintro ⟨f, hf, hdrive, hlow, hhigh, hlive⟩
    refine ⟨f.path, (hc driveId f.path).mpr ⟨f, hf, hdrive, rfl, hlive⟩, ?_⟩
    exact (List.range_iff_prefix Char.slash_covBy_zero dir f.path).mp ⟨hlow, hhigh⟩
  · rintro ⟨p, hp, hstart⟩
    obtain ⟨f, hf, hdrive, rfl, hlive⟩ := (hc driveId p).mp hp
    obtain ⟨hlow, hhigh⟩ :=
      (List.range_iff_prefix Char.slash_covBy_zero dir f.path).mpr hstart
    exact ⟨f, hf, hdrive, hlow, hhigh, hlive⟩

theorem listObjects_ne_nil_iff :
  listObjects c.objects driveId (dir ++ ['/']) ≠ [] ↔ c.IsFolder driveId dir
  := by
  constructor
  · intro hne
    obtain ⟨rest, hrest⟩ := List.exists_mem_of_ne_nil _ hne
    exact ⟨_, mem_listObjects.mp hrest, List.prefix_append _ _⟩
  · rintro ⟨p, hp, rest, rfl⟩
    exact List.ne_nil_of_mem (mem_listObjects.mpr hp)

/-- Which folder prefixes hold a live file. -/
theorem mem_liveFolderPrefixes (hc : c.Consistent) {prefixes : List Text} :
  dir ++ ['/'] ∈ c.liveFolderPrefixes driveId prefixes ↔
    dir ++ ['/'] ∈ prefixes ∧ c.IsFolder driveId dir
  := by
  unfold liveFolderPrefixes
  rw [List.mem_filter, decide_eq_true_eq, hasLiveFileRow_iff hc, listObjects_ne_nil_iff, or_self]

/-- A reported folder is one level down. -/
theorem exists_of_mem_prefixes {reported : Text}
    (h : reported ∈ (c.listLevel driveId dir).prefixes) :
  ∃ name, reported = dir ++ name ++ ['/']
  := by
  have hmem := List.mem_dedup.mp h
  obtain ⟨rest, -, rfl⟩ := List.mem_map.mp hmem
  exact ⟨_, rfl⟩

/-- The listing of a folder shows it one of its files, or the folder that the file is in. -/
theorem listLevel_of_mem {rest : Text} (h : (driveId, dir ++ rest) ∈ c.objects) :
  (c.listLevel driveId dir).objects ≠ [] ∨
    ∃ name, dir ++ name ++ ['/'] ∈ (c.listLevel driveId dir).prefixes ∧
      name ++ ['/'] <+: rest
  := by
  have hrest := mem_listObjects.mpr h
  by_cases hslash : '/' ∈ rest
  · right
    obtain ⟨name, below, rfl, hname⟩ := List.eq_append_cons_of_mem hslash
    have hfirst : (name ++ '/' :: below).takeWhile (· ≠ '/') = name := by
      rw [List.takeWhile_append_of_pos]
      · simp
      · intro c hc
        exact decide_eq_true (fun heq => hname (heq ▸ hc))
    refine ⟨name, ?_, ⟨below, by simp⟩⟩
    apply List.mem_dedup.mpr
    apply List.mem_map.mpr
    refine ⟨_, List.mem_filter.mpr ⟨?_, decide_eq_true hslash⟩, by rw [hfirst]⟩
    split
    · exact List.mem_append_left _ hrest
    · exact hrest
  · left
    apply List.ne_nil_of_mem
    apply List.mem_map.mpr
    exact ⟨rest, List.mem_filter.mpr ⟨hrest, decide_eq_true hslash⟩, rfl⟩

theorem isFolder_of_listLevel (h : (c.listLevel driveId (dir ++ ['/'])).objects ≠ []) :
  c.IsFolder driveId dir
  := by
  obtain ⟨p, hp⟩ := List.exists_mem_of_ne_nil _ h
  obtain ⟨rest, hrest, rfl⟩ := List.mem_map.mp hp
  exact ⟨_, mem_listObjects.mp (List.mem_of_mem_filter hrest), List.prefix_append _ _⟩

/-- A folder is what has a file under it. -/
theorem resolvePathKind_directory_iff (hc : c.Consistent)
    (hpath : normalizePrefix path = path ++ ['/']) :
  c.resolvePathKind driveId path = some .directory ↔ c.IsFolder driveId path
  := by
  have hfolders : c.liveFolderPrefixes driveId
      (c.listLevel driveId (path ++ ['/'])).prefixes ≠ [] → c.IsFolder driveId path := by
    intro hne
    obtain ⟨reported, hreported⟩ := List.exists_mem_of_ne_nil _ hne
    obtain ⟨name, rfl⟩ := exists_of_mem_prefixes (List.mem_of_mem_filter hreported)
    obtain ⟨-, p, hp, hstart⟩ := (mem_liveFolderPrefixes hc).mp hreported
    refine ⟨p, hp, List.IsPrefix.trans ?_ hstart⟩
    rw [List.append_assoc (path ++ ['/'])]
    exact List.prefix_append _ _
  unfold resolvePathKind
  rw [hpath]
  dsimp only
  constructor
  · intro h
    split_ifs at h with hobjects hstartes
    · exact isFolder_of_listLevel hobjects
    · exact hfolders hstartes
    all_goals cases h
  · rintro ⟨p, hp, rest, rfl⟩
    obtain hobjects | ⟨name, hreported, hname⟩ := listLevel_of_mem hp
    · rw [if_pos hobjects]
    · have hlive : path ++ ['/'] ++ name ++ ['/'] ∈ c.liveFolderPrefixes driveId
          (c.listLevel driveId (path ++ ['/'])).prefixes := by
        refine (mem_liveFolderPrefixes hc).mpr ⟨hreported, _, hp, ?_⟩
        rw [List.append_assoc (path ++ ['/'])]
        exact (List.prefix_append_right_inj _).mpr hname
      rw [if_pos (List.ne_nil_of_mem hlive)]
      split_ifs
      · rfl
      · rfl

/-- A file has an object. -/
theorem mem_objects_of_resolvePathKind (h : c.resolvePathKind driveId path = some .file) :
  (driveId, path) ∈ c.objects
  := by
  unfold resolvePathKind at h
  dsimp only at h
  split_ifs at h
  · cases h
  · cases h
  · rename_i hfile
    exact hfile.2

end Contents

end AgentFs.Favorites

import AgentFs.Lib.Split
import AgentFs.Storage.Adapter
import Mathlib.Data.List.DropRight

/-!
# The files of the local backend

`LocalStorageAdapter` resolves a key against its storage root: the body of a key is the
file at `<root>/<key>`, and a second file next to it, the sidecar, holds its metadata.
Every drive is a directory under the root.  The key guard keeps the body of a file inside
the directory of its drive; a file system drops empty segments, so paths that differ in
repeated slashes only have one body.
-/

namespace AgentFs

/-- One segment of `resolve`: an empty one and `.` play no part, `..` goes up. -/
def resolveSegment (dir : Loc) (s : Text) : Loc :=
  if s = [] ∨ s = ['.'] then dir
  else if s = ['.', '.'] then dir.dropLast
  else dir ++ [s]

/-- `resolve(root, key)` of `node:path`, as the segments of an absolute path. -/
def resolve (root : Loc) (key : Text) : Loc :=
  (key.splitOnP (· = '/')).foldl resolveSegment (if key.head? = some '/' then [] else root)

/-- `SIDECAR_SUFFIX`. -/
def sidecarSuffix : Text := ".meta.json".toList

/-- `bodyPath + SIDECAR_SUFFIX`. -/
def sidecarPath (bodyPath : Loc) : Loc :=
  bodyPath.dropLast ++ [bodyPath.getLast?.getD [] ++ sidecarSuffix]

/-- `basename` of `node:path`: the last segment that is not empty. -/
def basename (key : Text) : Text :=
  (locate .local key).getLast?.getD []

/-- Drop the trailing dots and spaces of a name. -/
def stripTrailingNoise (name : Text) : Text :=
  name.rdropWhile (fun c => c = '.' ∨ c = ' ')

/-- `TMP_SUFFIX`. -/
def tmpSuffix : Text := ".fls-tmp".toList

/-- The keys that the adapter serves without `files-sdk`: the name ends in `.fls-tmp`, in
any case, trailing dots and spaces ignored. -/
def IsLegacyReservedKey (key : Text) : Prop :=
  tmpSuffix <:+ (stripTrailingNoise (basename key)).map Char.toLower

instance (key : Text) : Decidable (IsLegacyReservedKey key) :=
  inferInstanceAs (Decidable (_ <:+ _))

/-- The id of an org or a drive. -/
structure StorageId where
  text : Text
  ne_nil : text ≠ []
  no_slash : '/' ∉ text

theorem StorageId.ext {a b : StorageId} (h : a.text = b.text) :
  a = b
  := by
  cases a
  cases b
  cases h
  rfl

instance : DecidableEq StorageId :=
  fun a b => decidable_of_iff (a.text = b.text) ⟨StorageId.ext, congrArg StorageId.text⟩

/-- A file of a drive. -/
structure DriveFile where
  orgId : StorageId
  driveId : StorageId
  path : Text
  deriving DecidableEq

namespace DriveFile

def key (f : DriveFile) : Text :=
  getS3Key f.orgId.text f.driveId.text f.path

/-- The segments of the path that are not empty. -/
def names (f : DriveFile) : List Text :=
  locate .local f.path

section

variable (root : Loc)

/-- The directory of the drive of a file. -/
def driveDir (f : DriveFile) : Loc :=
  resolve root (f.orgId.text ++ "/drives/".toList ++ f.driveId.text)

def body (f : DriveFile) : Loc :=
  resolve root f.key

def sidecar (f : DriveFile) : Loc :=
  sidecarPath (f.body root)

/-- The body lies below the directory of the drive. -/
def Contained (f : DriveFile) : Prop :=
  ∃ rest, rest ≠ [] ∧ f.body root = f.driveDir root ++ rest

/-- Neither file of the one is a file of the other. -/
def Apart (f g : DriveFile) : Prop :=
  f.body root ≠ g.body root ∧ f.sidecar root ≠ g.sidecar root ∧
    f.body root ≠ g.sidecar root ∧ f.sidecar root ≠ g.body root

end

/-- The adapter accepts the key: the key guard does, and `files-sdk` does, unless the key
is one that the adapter serves itself. -/
def Accepted (sdkRefuses : Text → Prop) (f : DriveFile) : Prop :=
  KeyInsideDrive f.key ∧ (IsLegacyReservedKey f.key ∨ ¬ sdkRefuses f.key)

end DriveFile

/-! ### Resolving a guarded key -/

theorem locate_local (key : Text) :
  locate .local key = (key.splitOnP (· = '/')).filter (· ≠ [])
  := rfl

/-- The place of a text is made of the places of its parts. -/
theorem locate_append_slash (key rest : Text) :
  locate .local (key ++ '/' :: rest) = locate .local key ++ locate .local rest
  := by
  rw [locate_local, locate_local, locate_local, List.splitOnP_append_cons _ _ (by decide),
    List.filter_append]

theorem locate_of_no_slash {s : Text} (hs : '/' ∉ s) (hne : s ≠ []) :
  locate .local s = [s]
  := by
  rw [locate_local, List.splitOnP_eq_singleton]
  · simp [hne]
  · intro c hc
    rw [decide_eq_false_iff_not]
    rintro rfl
    exact hs hc

/-- A leading slash does not change the place of a path. -/
theorem locate_stripLeadingSlash (path : Text) :
  locate .local (stripLeadingSlash path) = locate .local path
  := by
  unfold stripLeadingSlash
  split
  · rename_i h
    cases path with
    | nil => cases h
    | cons c path =>
        cases h
        exact (locate_append_slash [] path).symm
  · rfl

/-- Without dot segments, resolving goes to the place of the key below the root. -/
theorem foldl_resolveSegment (ss : List Text) (dir : Loc)
    (h : ∀ s ∈ ss, s ≠ ['.'] ∧ s ≠ ['.', '.']) :
  ss.foldl resolveSegment dir = dir ++ ss.filter (· ≠ [])
  := by
  induction ss generalizing dir with
  | nil => simp
  | cons s ss ih =>
      have hs := h s List.mem_cons_self
      rw [List.foldl_cons, ih _ (fun t ht => h t (List.mem_cons_of_mem _ ht))]
      by_cases hnil : s = []
      · simp [resolveSegment, hnil]
      · simp [resolveSegment, hnil, hs.1, hs.2]

/-- A segment of a guarded key at `/` is not a dot segment. -/
theorem KeyInsideDrive.no_dots {key s : Text} (h : KeyInsideDrive key)
    (hs : s ∈ key.splitOnP (· = '/')) :
  s ≠ ['.'] ∧ s ≠ ['.', '.']
  := by
  have hmem : (∀ c ∈ s, decide (c = '\\') = false) → s ∈ segments key := by
    intro hback
    have hor := List.mem_splitOnP_or hs hback
    simpa [segments, Bool.decide_or] using hor
  constructor
  · rintro rfl
    exact (h.2 _ (hmem (by simp))).1 rfl
  · rintro rfl
    exact (h.2 _ (hmem (by simp))).2 rfl

/-- A guarded relative key resolves to its place below the root. -/
theorem KeyInsideDrive.resolve {key : Text} (h : KeyInsideDrive key)
    (hrelative : key.head? ≠ some '/') (root : Loc) :
  resolve root key = root ++ locate .local key
  := by
  unfold AgentFs.resolve
  rw [if_neg hrelative, locate_local]
  apply foldl_resolveSegment
  intro s hs
  exact h.no_dots hs

/-- The beginning of a guarded key, up to a slash, is guarded. -/
theorem KeyInsideDrive.of_append_slash {key rest : Text}
    (h : KeyInsideDrive (key ++ '/' :: rest)) :
  KeyInsideDrive key
  := by
  constructor
  · intro hnul
    exact h.1 (List.mem_append_left _ hnul)
  · intro s hs
    apply h.2
    unfold segments at hs ⊢
    rw [List.splitOnP_append_cons _ _ (by decide)]
    exact List.mem_append_left _ hs

namespace DriveFile

variable {f g : DriveFile} {root : Loc}

theorem key_eq (f : DriveFile) :
  f.key = (f.orgId.text ++ "/drives/".toList ++ f.driveId.text) ++
    '/' :: stripLeadingSlash f.path
  := by
  simp [key, getS3Key]

theorem driveKey_eq (f : DriveFile) :
  f.orgId.text ++ "/drives/".toList ++ f.driveId.text =
    f.orgId.text ++ '/' :: ("drives".toList ++ '/' :: f.driveId.text)
  := by
  simp

/-- The first character of an id is not a slash. -/
theorem head?_append_id (id : StorageId) (rest : Text) :
  (id.text ++ rest).head? ≠ some '/'
  := by
  obtain ⟨text, hne, hslash⟩ := id
  cases text with
  | nil => exact absurd rfl hne
  | cons c text =>
      intro hhead
      cases hhead
      exact hslash List.mem_cons_self

/-- The place of the key of a drive. -/
theorem locate_driveKey (f : DriveFile) :
  locate .local (f.orgId.text ++ "/drives/".toList ++ f.driveId.text) =
    [f.orgId.text, "drives".toList, f.driveId.text]
  := by
  rw [driveKey_eq, locate_append_slash, locate_append_slash,
    locate_of_no_slash f.orgId.no_slash f.orgId.ne_nil,
    locate_of_no_slash f.driveId.no_slash f.driveId.ne_nil]
  rfl

theorem driveDir_eq (h : KeyInsideDrive f.key) :
  f.driveDir root = root ++ [f.orgId.text, "drives".toList, f.driveId.text]
  := by
  rw [key_eq] at h
  unfold driveDir
  rw [h.of_append_slash.resolve, locate_driveKey]
  rw [driveKey_eq]
  apply head?_append_id

/-- The body of a file is at the names of its path, below the directory of its drive. -/
theorem body_eq (h : KeyInsideDrive f.key) :
  f.body root = f.driveDir root ++ f.names
  := by
  rw [driveDir_eq h]
  unfold body names
  rw [h.resolve, key_eq, locate_append_slash, locate_driveKey, locate_stripLeadingSlash,
    List.append_assoc]
  rw [key_eq, driveKey_eq, List.append_assoc]
  apply head?_append_id

/-- The body lies below the drive unless the path has no name. -/
theorem contained_iff (h : KeyInsideDrive f.key) :
  f.Contained root ↔ f.names ≠ []
  := by
  unfold Contained
  rw [body_eq h]
  constructor
  · rintro ⟨rest, hrest, heq⟩
    rwa [List.append_cancel_left heq]
  · intro hnames
    exact ⟨f.names, hnames, rfl⟩

/-- Files have one body when they are of one drive and their paths have the same names. -/
theorem body_eq_iff (hf : KeyInsideDrive f.key) (hg : KeyInsideDrive g.key) :
  f.body root = g.body root ↔
    f.orgId = g.orgId ∧ f.driveId = g.driveId ∧ f.names = g.names
  := by
  rw [body_eq hf, body_eq hg, driveDir_eq hf, driveDir_eq hg]
  constructor
  · intro heq
    simp only [List.append_assoc, List.append_cancel_left_eq, List.cons_append,
      List.nil_append, List.cons.injEq, true_and] at heq
    exact ⟨StorageId.ext heq.1, StorageId.ext heq.2.1, heq.2.2⟩
  · rintro ⟨horg, hdrive, hnames⟩
    rw [horg, hdrive, hnames]

end DriveFile

/-- A body is determined by its sidecar. -/
theorem sidecarPath_injective {l l' : Loc} (hl : l ≠ []) (hl' : l' ≠ [])
    (h : sidecarPath l = sidecarPath l') :
  l = l'
  := by
  unfold sidecarPath at h
  rw [List.getLast?_eq_some_getLast hl, List.getLast?_eq_some_getLast hl'] at h
  obtain ⟨hinit, hlast⟩ := List.append_inj' h rfl
  rw [← List.dropLast_append_getLast hl, ← List.dropLast_append_getLast hl', hinit]
  simpa using hlast

/-- A name that ends in the suffix of the sidecars is not reserved for staging. -/
theorem not_isLegacyReservedKey {key : Text} (h : sidecarSuffix <:+ basename key) :
  ¬ IsLegacyReservedKey key
  := by
  obtain ⟨stem, hstem⟩ := h
  have hside : stem ++ sidecarSuffix = stem ++ ".meta.jso".toList ++ ['n'] := by
    rw [List.append_assoc]
    rfl
  have htmp (stem' : Text) : stem' ++ tmpSuffix = stem' ++ ".fls-tm".toList ++ ['p'] := by
    rw [List.append_assoc]
    rfl
  rintro ⟨stem', heq⟩
  unfold stripTrailingNoise at heq
  rw [htmp, ← hstem, hside, List.rdropWhile_concat_neg _ _ _ (by decide), List.map_append] at heq
  cases List.append_inj_right' heq rfl

namespace DriveFile

variable {f g : DriveFile} {root : Loc}

theorem body_ne_nil (h : KeyInsideDrive f.key) :
  f.body root ≠ []
  := by
  rw [body_eq h, driveDir_eq h]
  simp

/-- The name of a key is the last name of its path. -/
theorem basename_key (h : f.names ≠ []) :
  basename f.key = f.names.getLast h
  := by
  unfold basename
  rw [key_eq, locate_append_slash, locate_stripLeadingSlash]
  show (_ ++ f.names).getLast?.getD [] = _
  rw [List.getLast?_append_of_ne_nil _ h, List.getLast?_eq_some_getLast h]
  rfl

/-- The body of an accepted file is not the sidecar of a file: `files-sdk` reserves the
suffix of the sidecars. -/
theorem Accepted.body_ne_sidecar {sdkRefuses : Text → Prop}
    (hsdk : ∀ key, sidecarSuffix <:+ basename key → sdkRefuses key)
    (hf : f.Accepted sdkRefuses) (hnames : f.names ≠ []) :
  f.body root ≠ g.sidecar root
  := by
  intro heq
  have hsuffix : sidecarSuffix <:+ basename f.key := by
    have hlast := congrArg List.getLast? heq
    rw [body_eq hf.1, List.getLast?_append_of_ne_nil _ hnames] at hlast
    unfold sidecar sidecarPath at hlast
    rw [List.getLast?_concat, List.getLast?_eq_some_getLast hnames] at hlast
    rw [basename_key hnames, Option.some.inj hlast]
    apply List.suffix_append
  cases hf.2 with
  | inl hlegacy => exact not_isLegacyReservedKey hsuffix hlegacy
  | inr hsdk' => exact hsdk' (hsdk _ hsuffix)

/-- The bodies of two accepted files lie inside the directories of their drives, and
different files share neither body nor sidecar, exactly when both paths have a name and
the files are not two spellings of one path: files of one drive whose paths have the same
names have the same path. -/
theorem contained_and_apart_iff (root : Loc) (sdkRefuses : Text → Prop)
    (hsdk : ∀ key, sidecarSuffix <:+ basename key → sdkRefuses key) (f g : DriveFile)
    (hf : f.Accepted sdkRefuses) (hg : g.Accepted sdkRefuses) :
  (f.Contained root ∧ g.Contained root ∧ (f ≠ g → f.Apart root g)) ↔
    (f.names ≠ [] ∧ g.names ≠ [] ∧
      (f.orgId = g.orgId → f.driveId = g.driveId → f.names = g.names → f.path = g.path))
  := by
  rw [contained_iff hf.1, contained_iff hg.1]
  constructor
  · rintro ⟨hfnames, hgnames, happart⟩
    refine ⟨hfnames, hgnames, ?_⟩
    intro horg hdrive hnames
    by_contra hpath
    have hne : f ≠ g := by
      rintro rfl
      exact hpath rfl
    exact (happart hne).1 ((body_eq_iff hf.1 hg.1).mpr ⟨horg, hdrive, hnames⟩)
  · rintro ⟨hfnames, hgnames, hspelling⟩
    refine ⟨hfnames, hgnames, ?_⟩
    intro hne
    have hbody : f.body root ≠ g.body root := by
      intro heq
      obtain ⟨horg, hdrive, hnames⟩ := (body_eq_iff hf.1 hg.1).mp heq
      have hpath := hspelling horg hdrive hnames
      apply hne
      cases f
      cases g
      cases horg
      cases hdrive
      cases hpath
      rfl
    refine ⟨hbody, ?_, hf.body_ne_sidecar hsdk hfnames, ?_⟩
    · intro hsidecar
      exact hbody (sidecarPath_injective (body_ne_nil hf.1) (body_ne_nil hg.1) hsidecar)
    · intro hsidecar
      exact hg.body_ne_sidecar hsdk hgnames hsidecar.symm

/-- A file of the sample drive. -/
def sample (path : String) : DriveFile where
  orgId := ⟨"org".toList, by decide, by decide⟩
  driveId := ⟨"drive".toList, by decide, by decide⟩
  path := normalizePath path.toList

theorem contained_and_apart_iff_sample :
  (sample "/a").Apart ["data".toList] (sample "/b")
  := by
  apply ((contained_and_apart_iff ["data".toList] (fun key => sidecarSuffix <:+ basename key)
    (fun _ h => h) (sample "/a") (sample "/b") ⟨by decide, .inr (by decide)⟩
    ⟨by decide, .inr (by decide)⟩).mpr (by decide)).2.2
  decide

/-- A doubled slash makes another path of the same body. -/
theorem body_of_doubled_slash :
  (sample "/a//b").path = normalizePath (sample "/a//b").path ∧
    (sample "/a/b").path = normalizePath (sample "/a/b").path ∧
    KeyInsideDrive (sample "/a//b").key ∧ KeyInsideDrive (sample "/a/b").key ∧
    sample "/a//b" ≠ sample "/a/b" ∧
    (sample "/a//b").body ["data".toList] = (sample "/a/b").body ["data".toList]
  := by
  decide

end DriveFile

end AgentFs

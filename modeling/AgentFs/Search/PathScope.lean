import AgentFs.Lib.Like
import AgentFs.Search.FtsMigration

/-!
# Path scopes

`grep`, `fts`, `recent` and `reindex` take a path and compare the paths of rows with it by `LIKE`.
The regular expression of `grep` and the matching of FTS5 are parameters.
-/

namespace AgentFs

open Like

/-- Ensure that a search prefix starts with `/`. -/
def withLeadingSlash (path : Text) : Text :=
  if path.head? = some '/' then path else '/' :: path

/-! ### grep -/

structure GrepMatch where
  path : Text
  lineNumber : Nat
  content : Text
  deriving DecidableEq, Repr

/-- The rows that `grep` reads, of the documents and of the legacy table while it exists. -/
def grepFiles (driveId pre : Text) (w : SearchWorld) : List FtsCandidate :=
  (docTable w).filter (fun c => c.driveId = driveId ∧ startsLike pre c.path) ++
    (legacyTable w).filter (fun c =>
      (c.driveId = driveId ∧ startsLike pre c.path) ∧ legacyRowIsCurrent w c)

/-- The lines of a row that the expression matches. -/
def grepLines (regex : Text → Bool) (file : FtsCandidate) : List GrepMatch :=
  ((file.content.splitOn '\n').zipIdx.filter (fun line => regex line.1)).map
    (fun line => ⟨file.path, line.2 + 1, line.1⟩)

def grep (driveId : Text) (regex : Text → Bool) (path : Text) (w : SearchWorld) : List GrepMatch :=
  (grepFiles driveId (normalizePrefix path) w).flatMap (grepLines regex)

/-! ### fts -/

/-- FTS5 with the `LIKE` of SQLite. -/
def likeEngine (isMatch : Text → Text → Bool) (rank : List Text → Text → Text → Int)
    (snippet : Text → Text → Text) : FtsEngine where
  isMatch := isMatch
  rank := rank
  snippet := snippet
  startsLike := startsLike

/-- The matches of the operation `fts`. -/
def fts (engine : FtsEngine) (driveId pattern : Text) (path : Option Text) (w : SearchWorld) :
    List FtsMatch :=
  ftsQuery engine
    { pattern := pattern
      driveId := driveId
      pathPrefix := (path.filter (· ≠ [])).map withLeadingSlash } w

/-! ### recent -/

structure RecentParams where
  path : Option Text := none
  since : Option Nat := none
  limit : Option Nat := none
  deriving DecidableEq, Repr

structure RecentEntry where
  path : Text
  version : Nat
  author : Text
  createdAt : Nat
  operation : Operation
  message : Option Text
  diffSummary : Option Text
  size : Option Nat
  deriving DecidableEq, Repr

def FileVersionRow.entry (row : FileVersionRow) : RecentEntry where
  path := row.path
  version := row.version
  author := row.author
  createdAt := row.createdAt
  operation := row.operation
  message := row.message
  diffSummary := row.diffSummary
  size := row.size

/-- The condition of the query; a later `where` takes the place of an earlier one. -/
def recentWhere (driveId : Text) (params : RecentParams) (row : FileVersionRow) : Bool :=
  let query : Bool := row.driveId = driveId
  let query : Bool := match params.path.filter (· ≠ []) with
    | none => query
    | some path => row.driveId = driveId ∧ startsLike (withLeadingSlash path) row.path
  match params.since with
  | none => query
  | some since => row.driveId = driveId ∧ since ≤ row.createdAt

def recent (driveId : Text) (params : RecentParams) (w : SearchWorld) : List RecentEntry :=
  (((w.world.db.fileVersions.filter (recentWhere driveId params)).mergeSort
    (fun a b => b.createdAt ≤ a.createdAt)).take (params.limit.getD 50)).map FileVersionRow.entry

/-! ### reindex -/

/-- `fileConditions`. -/
def reindexConditions (driveId : Text) (path : Option Text) (file : FileRow) : Bool :=
  file.driveId = driveId ∧ file.isDeleted = false ∧
    (path.filter (· ≠ [])).all (fun path => startsLike (normalizePrefix path) file.path)

/-- The update that lets failed images be embedded again. -/
def retryFailedImages (driveId : Text) (path : Option Text) (w : SearchWorld) : SearchWorld :=
  { w with index := { w.index with
    imageStatus := fun d p =>
      if (w.world.db.filesOf d p).any (reindexConditions driveId path) ∧
          w.index.imageStatus d p = some .failed then some .pending
      else w.index.imageStatus d p } }

/-- What `reindex` changes at once and the files that it goes through; of each it reads the object
and replaces the rows of the index. -/
def reindex (driveId : Text) (path : Option Text) (embedsImages : Bool) (w : SearchWorld) :
    SearchWorld × List FileRow :=
  let w := if embedsImages then retryFailedImages driveId path w else w
  (w, w.world.db.files.filter (fun file => reindexConditions driveId path file ∧
    (w.index.textStatus file.driveId file.path = some .failed ∨
      w.index.textStatus file.driveId file.path = none ∨
      w.index.textStatus file.driveId file.path = some .pending)))

/-! ### Scopes -/

/-- All paths that are stored are normalized. -/
structure SearchWorld.NormalPaths (w : SearchWorld) : Prop where
  docs : ∀ c ∈ docTable w ++ legacyTable w, normalizePath c.path = c.path
  versions : ∀ row ∈ w.world.db.fileVersions, normalizePath row.path = row.path
  files : ∀ file ∈ w.world.db.files, normalizePath file.path = file.path

/-- `grep` shows matching lines of rows of the drive below the path only. -/
def GrepScoped (driveId path : Text) : Prop :=
  ∀ w regex, w.NormalPaths → ∀ found ∈ grep driveId regex path w,
    ∃ file ∈ docTable w ++ legacyTable w, file.driveId = driveId ∧ file.path = found.path ∧
      found.content ∈ file.content.splitOn '\n' ∧ regex found.content = true ∧
      normalizePrefix path <+: file.path

/-- `fts` shows matching rows of the drive below the path only. -/
def FtsScoped (driveId path : Text) : Prop :=
  ∀ w isMatch rank snippet pattern, w.NormalPaths →
    ∀ found ∈ fts (likeEngine isMatch rank snippet) driveId pattern (some path) w,
      ∃ file ∈ docTable w ++ legacyTable w, file.driveId = driveId ∧ file.path = found.path ∧
        found.snippet = snippet pattern file.content ∧ isMatch pattern file.content = true ∧
        withLeadingSlash path <+: file.path

/-- `recent` shows versions of the drive below the path and since the given time only. -/
def RecentScoped (driveId path : Text) (since : Option Nat) : Prop :=
  ∀ w limit, w.NormalPaths → ∀ entry ∈ recent driveId ⟨some path, since, limit⟩ w,
    ∃ row ∈ w.world.db.fileVersions, row.driveId = driveId ∧ entry = row.entry ∧
      (∀ time ∈ since, time ≤ row.createdAt) ∧ withLeadingSlash path <+: row.path

/-- `reindex` changes the status of files of the drive below the path only, and goes through live
ones of these that are not indexed. -/
def ReindexScoped (driveId path : Text) : Prop :=
  ∀ w embedsImages, w.NormalPaths →
    (∀ d p, (reindex driveId (some path) embedsImages w).1.index.imageStatus d p ≠
        w.index.imageStatus d p → d = driveId ∧ normalizePrefix path <+: p) ∧
    ∀ file ∈ (reindex driveId (some path) embedsImages w).2, file ∈ w.world.db.files ∧
      file.driveId = driveId ∧ file.isDeleted = false ∧
      w.index.textStatus file.driveId file.path ∉ [some .indexed, some .skipped] ∧
      normalizePrefix path <+: file.path

/-! ### Plain prefixes -/

theorem isPlain_slash :
  IsPlain '/'
  := by
  decide

theorem head?_withLeadingSlash (path : Text) :
  (withLeadingSlash path).head? = some '/'
  := by
  unfold withLeadingSlash
  split
  · assumption
  · rfl

theorem normalizePrefix_eq (path : Text) :
  normalizePrefix path =
    if (withLeadingSlash path).getLast? = some '/' then withLeadingSlash path
    else withLeadingSlash path ++ ['/']
  := rfl

/-- A slash in front or at the end does not make a prefix less plain. -/
theorem plain_withLeadingSlash {path : Text} :
  (∀ c ∈ withLeadingSlash path, IsPlain c) ↔ ∀ c ∈ path, IsPlain c
  := by
  unfold withLeadingSlash
  split
  · exact Iff.rfl
  · rw [List.forall_mem_cons, and_iff_right isPlain_slash]

theorem plain_normalizePrefix {path : Text} :
  (∀ c ∈ normalizePrefix path, IsPlain c) ↔ ∀ c ∈ path, IsPlain c
  := by
  rw [normalizePrefix_eq]
  split
  · exact plain_withLeadingSlash
  · rw [List.forall_mem_append, List.forall_mem_singleton, and_iff_left isPlain_slash]
    exact plain_withLeadingSlash

/-- A normalized path does not end with a slash. -/
theorem normalizePath_concat {path : Text} {c : Char} (hhead : path.head? = some '/')
    (hc : c ≠ '/') :
  normalizePath (path ++ [c]) = path ++ [c]
  := by
  have hslash : (path ++ [c]).head? = some '/' := by
    rw [List.head?_append, hhead]
    rfl
  unfold normalizePath
  dsimp only
  rw [if_pos hslash, if_neg]
  rintro ⟨-, hlast⟩
  rw [List.getLast?_concat] at hlast
  exact hc (Option.some.inj hlast)

/-- A prefix that is not plain is taken for that of a path that does not have it. -/
theorem exists_strayPath {pre : Text} (hhead : pre.head? = some '/')
    (h : ¬ ∀ c ∈ pre, IsPlain c) :
  ∃ path, normalizePath path = path ∧ startsLike pre path = true ∧ ¬ pre <+: path
  := by
  obtain ⟨before, x, c, after, rfl, hx, -, hstray⟩ := exists_stray h
  obtain ⟨hlike, hprefix⟩ := hstray ['f']
  refine ⟨_, ?_, hlike, hprefix⟩
  rw [← List.cons_append, ← List.append_assoc]
  apply normalizePath_concat
  · cases before with
    | nil =>
        cases hhead
        exact absurd isPlain_slash hx
    | cons y before => exact hhead
  · decide

/-! ### The four operations -/

section

variable {driveId path : Text} {w : SearchWorld}

theorem mem_grep {regex : Text → Bool} {found : GrepMatch} (h : found ∈ grep driveId regex path w) :
  ∃ file ∈ docTable w ++ legacyTable w, file.driveId = driveId ∧ file.path = found.path ∧
    found.content ∈ file.content.splitOn '\n' ∧ regex found.content = true ∧
    startsLike (normalizePrefix path) file.path = true
  := by
  obtain ⟨file, hfile, hfound⟩ := List.mem_flatMap.mp h
  obtain ⟨line, hline, rfl⟩ := List.mem_map.mp hfound
  obtain ⟨hzip, hregex⟩ := List.mem_filter.mp hline
  refine ⟨file, ?_, ?_⟩
  · rcases List.mem_append.mp hfile with hdoc | hlegacy
    · exact List.mem_append_left _ (List.mem_of_mem_filter hdoc)
    · exact List.mem_append_right _ (List.mem_of_mem_filter hlegacy)
  · have hboth : file.driveId = driveId ∧ startsLike (normalizePrefix path) file.path = true := by
      rcases List.mem_append.mp hfile with hdoc | hlegacy
      · exact of_decide_eq_true (List.mem_filter.mp hdoc).2
      · exact (of_decide_eq_true (List.mem_filter.mp hlegacy).2).1
    exact ⟨hboth.1, rfl, List.fst_mem_of_mem_zipIdx hzip, hregex, hboth.2⟩

/-- A search index with one document, without a text. -/
def oneDocument (driveId path : Text) : SearchWorld :=
  { SearchWorld.empty with index := { SearchWorld.empty.index with
    ftsDocs := [⟨1, driveId, path, []⟩] } }

theorem normalPaths_oneDocument (hnormal : normalizePath path = path) :
  (oneDocument driveId path).NormalPaths
  where
  docs := by
    intro c hc
    cases List.mem_singleton.mp hc
    exact hnormal
  versions := nofun
  files := nofun

theorem grep_oneDocument {stray : Text} (h : startsLike (normalizePrefix path) stray = true) :
  ⟨stray, 1, []⟩ ∈ grep driveId (fun _ => true) path (oneDocument driveId stray)
  := by
  refine List.mem_flatMap.mpr ⟨⟨driveId, stray, []⟩, List.mem_append_left _ ?_, ?_⟩
  · exact List.mem_filter.mpr ⟨List.mem_singleton_self _, decide_eq_true ⟨rfl, h⟩⟩
  · exact List.mem_singleton_self _

theorem grep_scoped_iff :
  GrepScoped driveId path ↔ ∀ c ∈ path, IsPlain c
  := by
  rw [← plain_normalizePrefix]
  constructor
  · intro h
    by_contra hplain
    obtain ⟨stray, hnormal, hlike, hprefix⟩ := exists_strayPath (head?_normalizePrefix path) hplain
    obtain ⟨file, -, -, hpath, -, -, hscope⟩ :=
      h _ _ (normalPaths_oneDocument hnormal) _ (@grep_oneDocument driveId _ _ hlike)
    rw [hpath] at hscope
    exact hprefix hscope
  · intro hplain w regex _ found hfound
    obtain ⟨file, hfile, hdrive, hpath, hline, hregex, hlike⟩ := mem_grep hfound
    exact ⟨file, hfile, hdrive, hpath, hline, hregex, (startsLike_iff_start hplain).mp hlike⟩

/-- A result of a table is one of its candidates. -/
theorem mem_ftsQueryTable {engine : FtsEngine} {params : FtsQueryParams}
    {table candidates : List FtsCandidate} {found : FtsMatch}
    (h : found ∈ ftsQueryTable engine params table candidates) :
  ∃ file ∈ candidates, file.path = found.path ∧
    found.snippet = engine.snippet params.pattern file.content
  := by
  have hmap := List.mem_mergeSort.mp (List.mem_of_mem_take h)
  obtain ⟨file, hfile, rfl⟩ := List.mem_map.mp hmap
  exact ⟨file, hfile, rfl, rfl⟩

/-- A result of a query is a row of one of the tables that matches. -/
theorem mem_ftsQuery {engine : FtsEngine} {params : FtsQueryParams} {found : FtsMatch}
    (h : found ∈ ftsQuery engine params w) :
  ∃ file ∈ docTable w ++ legacyTable w, params.Matches engine file ∧ file.path = found.path ∧
    found.snippet = engine.snippet params.pattern file.content
  := by
  have hdocs : found ∈ ftsQueryTable engine params (docTable w)
      (queryCandidates engine params w).1 → ∃ file ∈ docTable w ++ legacyTable w,
        params.Matches engine file ∧ file.path = found.path ∧
          found.snippet = engine.snippet params.pattern file.content := by
    intro hfound
    obtain ⟨file, hfile, hpath, hsnippet⟩ := mem_ftsQueryTable hfound
    obtain ⟨htable, hmatches⟩ := List.mem_filter.mp hfile
    exact ⟨file, List.mem_append_left _ htable, of_decide_eq_true hmatches, hpath, hsnippet⟩
  unfold ftsQuery at h
  dsimp only at h
  split at h
  · exact hdocs h
  · rcases List.mem_append.mp (List.mem_mergeSort.mp (List.mem_of_mem_take h)) with hnew | hlegacy
    · exact hdocs hnew
    · obtain ⟨file, hfile, hpath, hsnippet⟩ := mem_ftsQueryTable hlegacy
      obtain ⟨htable, hmatches⟩ := List.mem_filter.mp (List.mem_of_mem_filter hfile)
      exact ⟨file, List.mem_append_right _ htable, of_decide_eq_true hmatches, hpath, hsnippet⟩

theorem filter_path (hpath : path ≠ []) :
  (some path).filter (· ≠ []) = some path
  := by
  simp [hpath]

theorem fts_oneDocument (hpath : path ≠ []) {stray : Text}
    (h : startsLike (withLeadingSlash path) stray = true) :
  ⟨stray, [], 0⟩ ∈ fts (likeEngine (fun _ _ => true) (fun _ _ _ => 0) (fun _ _ => [])) driveId []
    (some path) (oneDocument driveId stray)
  := by
  unfold fts
  rw [filter_path hpath]
  have hcandidates : ftsCandidates (likeEngine (fun _ _ => true) (fun _ _ _ => 0) (fun _ _ => []))
      ⟨[], driveId, some (withLeadingSlash path)⟩ [⟨driveId, stray, []⟩] =
        [⟨driveId, stray, []⟩] := by
    apply List.filter_eq_self.mpr
    intro file hfile
    cases List.mem_singleton.mp hfile
    exact decide_eq_true ⟨rfl, rfl, h⟩
  change _ ∈ ftsQueryTable _ _ _ (ftsCandidates _ _ [⟨driveId, stray, []⟩])
  rw [Option.map_some, hcandidates, ftsQueryTable, List.map_singleton, List.mergeSort_singleton]
  exact List.mem_singleton_self _

theorem fts_scoped_iff (hpath : path ≠ []) :
  FtsScoped driveId path ↔ ∀ c ∈ path, IsPlain c
  := by
  rw [← plain_withLeadingSlash]
  constructor
  · intro h
    by_contra hplain
    obtain ⟨stray, hnormal, hlike, hprefix⟩ := exists_strayPath (head?_withLeadingSlash path) hplain
    obtain ⟨file, -, -, hpath, -, -, hscope⟩ := h _ _ _ _ _ (normalPaths_oneDocument hnormal) _
      (@fts_oneDocument driveId _ hpath _ hlike)
    rw [hpath] at hscope
    exact hprefix hscope
  · intro hplain w isMatch rank snippet pattern _ found hfound
    obtain ⟨file, hfile, ⟨hmatch, hdrive, hlike⟩, hsame, hsnippet⟩ := mem_ftsQuery hfound
    rw [filter_path hpath] at hlike
    exact ⟨file, hfile, hdrive, hsame, hsnippet, hmatch, (startsLike_iff_start hplain).mp hlike⟩

/-- An entry of `recent` is a row that satisfies the condition of the query. -/
theorem mem_recent {params : RecentParams} {entry : RecentEntry}
    (h : entry ∈ recent driveId params w) :
  ∃ row ∈ w.world.db.fileVersions, entry = row.entry ∧ recentWhere driveId params row = true
  := by
  obtain ⟨row, hrow, rfl⟩ := List.mem_map.mp h
  obtain ⟨hmem, hwhere⟩ := List.mem_filter.mp (List.mem_mergeSort.mp (List.mem_of_mem_take hrow))
  exact ⟨row, hmem, rfl, hwhere⟩

/-- The only version of a file. -/
def oneVersion (driveId path : Text) (createdAt : Nat) : FileVersionRow where
  id := 1
  path := path
  driveId := driveId
  version := 1
  s3VersionId := []
  author := []
  operation := .write
  message := none
  diffSummary := none
  size := none
  etag := none
  contentHash := none
  createdAt := createdAt

def oneVersionWorld (driveId path : Text) (createdAt : Nat) : SearchWorld :=
  { SearchWorld.empty with world := { World.empty with db := { Db.empty with
    fileVersions := [oneVersion driveId path createdAt] } } }

theorem recent_oneVersion {params : RecentParams} {stray : Text} {createdAt : Nat}
    (hlimit : params.limit = none)
    (h : recentWhere driveId params (oneVersion driveId stray createdAt) = true) :
  (oneVersion driveId stray createdAt).entry ∈
    recent driveId params (oneVersionWorld driveId stray createdAt)
  := by
  have hfilter : [oneVersion driveId stray createdAt].filter (recentWhere driveId params) =
      [oneVersion driveId stray createdAt] := by
    rw [List.filter_cons_of_pos h]
    rfl
  change _ ∈ ((([oneVersion driveId stray createdAt].filter (recentWhere driveId params)).mergeSort
    _).take _).map _
  rw [hfilter, List.mergeSort_singleton, hlimit]
  exact List.mem_singleton_self _

theorem normalPaths_oneVersion {stray : Text} {createdAt : Nat}
    (hnormal : normalizePath stray = stray) :
  (oneVersionWorld driveId stray createdAt).NormalPaths
  where
  docs := nofun
  versions := by
    intro row hrow
    cases List.mem_singleton.mp hrow
    exact hnormal
  files := nofun

/-- A prefix other than `/` is missing from some path. -/
theorem exists_outside {pre : Text} (hhead : pre.head? = some '/') (hne : pre ≠ ['/']) :
  ∃ path, normalizePath path = path ∧ ¬ pre <+: path
  := by
  cases pre with
  | nil => cases hhead
  | cons x pre =>
      cases hhead
      cases pre with
      | nil => exact absurd rfl hne
      | cons y pre =>
          by_cases hy : y = 'a'
          · refine ⟨['/', 'b'], by decide, ?_⟩
            intro hprefix
            have hsame := (List.cons_prefix_cons.mp (List.cons_prefix_cons.mp hprefix).2).1
            rw [hy] at hsame
            exact absurd hsame (by decide)
          · refine ⟨['/', 'a'], by decide, ?_⟩
            intro hprefix
            exact hy (List.cons_prefix_cons.mp (List.cons_prefix_cons.mp hprefix).2).1

/-- Together with a time the path is not looked at. -/
theorem recent_scoped_iff (hpath : path ≠ []) {since : Option Nat} :
  RecentScoped driveId path since ↔
    (∀ c ∈ path, IsPlain c) ∧ (since = none ∨ withLeadingSlash path = ['/'])
  := by
  rw [← plain_withLeadingSlash]
  constructor
  · intro h
    have hstray : ∀ (stray : Text) (createdAt : Nat), normalizePath stray = stray →
        recentWhere driveId ⟨some path, since, none⟩ (oneVersion driveId stray createdAt) = true →
        withLeadingSlash path <+: stray := by
      intro stray createdAt hnormal hwhere
      obtain ⟨row, hrow, -, -, -, hprefix⟩ := h _ none (normalPaths_oneVersion hnormal) _
        (recent_oneVersion rfl hwhere)
      cases List.mem_singleton.mp hrow
      exact hprefix
    cases since with
    | none =>
        refine ⟨?_, Or.inl rfl⟩
        by_contra hplain
        obtain ⟨stray, hnormal, hlike, hprefix⟩ :=
          exists_strayPath (head?_withLeadingSlash path) hplain
        refine hprefix (hstray stray 0 hnormal ?_)
        unfold recentWhere
        rw [filter_path hpath]
        exact decide_eq_true ⟨rfl, hlike⟩
    | some time =>
        have hroot : withLeadingSlash path = ['/'] := by
          by_contra hroot
          obtain ⟨stray, hnormal, hprefix⟩ := exists_outside (head?_withLeadingSlash path) hroot
          exact hprefix (hstray stray time hnormal (decide_eq_true ⟨rfl, le_rfl⟩))
        refine ⟨?_, Or.inr hroot⟩
        rw [hroot]
        intro c hc
        rw [List.mem_singleton.mp hc]
        exact isPlain_slash
  · rintro ⟨hplain, hsince⟩ w limit hnormal entry hentry
    obtain ⟨row, hrow, rfl, hwhere⟩ := mem_recent hentry
    unfold recentWhere at hwhere
    rw [filter_path hpath] at hwhere
    cases since with
    | none =>
        obtain ⟨hdrive, hlike⟩ := of_decide_eq_true hwhere
        exact ⟨row, hrow, hdrive, rfl, nofun, (startsLike_iff_start hplain).mp hlike⟩
    | some time =>
        obtain ⟨hdrive, htime⟩ := of_decide_eq_true hwhere
        refine ⟨row, hrow, hdrive, rfl, ?_, ?_⟩
        · rintro _ ⟨⟩
          exact htime
        · rw [hsince.resolve_left nofun]
          have hhead := head?_normalizePath row.path
          rw [hnormal.versions row hrow] at hhead
          cases hrowpath : row.path with
          | nil =>
              rw [hrowpath] at hhead
              cases hhead
          | cons c rest =>
              rw [hrowpath] at hhead
              cases hhead
              exact ⟨rest, rfl⟩

/-- A world with one live file, which is not indexed yet. -/
def oneFileWorld (driveId path : Text) : SearchWorld :=
  { SearchWorld.empty with world := { World.empty with db := { Db.empty with
    files := [⟨path, driveId, 0, none, [], none, 0, 0, false⟩] } } }

theorem normalPaths_oneFile {stray : Text} (hnormal : normalizePath stray = stray) :
  (oneFileWorld driveId stray).NormalPaths
  where
  docs := nofun
  versions := nofun
  files := by
    intro file hfile
    cases List.mem_singleton.mp hfile
    exact hnormal

theorem reindexConditions_iff (hpath : path ≠ []) {file : FileRow} :
  reindexConditions driveId (some path) file = true ↔
    file.driveId = driveId ∧ file.isDeleted = false ∧
      startsLike (normalizePrefix path) file.path = true
  := by
  unfold reindexConditions
  rw [filter_path hpath, decide_eq_true_iff]
  rfl

/-- The update of `reindex` changes only what it has to. -/
theorem retryFailedImages_ne {d p : Text}
    (h : (retryFailedImages driveId (some path) w).index.imageStatus d p ≠ w.index.imageStatus d p) :
  ∃ file ∈ w.world.db.filesOf d p, reindexConditions driveId (some path) file = true
  := by
  unfold retryFailedImages at h
  dsimp only at h
  split at h
  · rename_i hboth
    exact List.any_eq_true.mp hboth.1
  · exact absurd rfl h

theorem reindex_scoped_iff (hpath : path ≠ []) :
  ReindexScoped driveId path ↔ ∀ c ∈ path, IsPlain c
  := by
  rw [← plain_normalizePrefix]
  constructor
  · intro h
    by_contra hplain
    obtain ⟨stray, hnormal, hlike, hprefix⟩ := exists_strayPath (head?_normalizePrefix path) hplain
    obtain ⟨-, hfiles⟩ := h _ false (normalPaths_oneFile hnormal)
    refine hprefix (hfiles ⟨stray, driveId, 0, none, [], none, 0, 0, false⟩ ?_).2.2.2.2
    refine List.mem_filter.mpr ⟨List.mem_singleton_self _, decide_eq_true ⟨?_, ?_⟩⟩
    · exact (reindexConditions_iff hpath).mpr ⟨rfl, rfl, hlike⟩
    · exact Or.inr (Or.inr rfl)
  · intro hplain w embedsImages _
    constructor
    · intro d p hne
      cases embedsImages with
      | false => exact absurd rfl hne
      | true =>
          obtain ⟨file, hfile, hconditions⟩ := retryFailedImages_ne hne
          obtain ⟨hdrive, -, hlike⟩ := (reindexConditions_iff hpath).mp hconditions
          obtain ⟨rfl, rfl⟩ := of_decide_eq_true (List.mem_filter.mp hfile).2
          exact ⟨hdrive, (startsLike_iff_start hplain).mp hlike⟩
    · intro file hfile
      have hboth : file ∈ w.world.db.files ∧ reindexConditions driveId (some path) file = true ∧
          (w.index.textStatus file.driveId file.path = some .failed ∨
            w.index.textStatus file.driveId file.path = none ∨
            w.index.textStatus file.driveId file.path = some .pending) := by
        cases embedsImages with
        | false => exact (List.mem_filter.mp hfile).imp_right of_decide_eq_true
        | true => exact (List.mem_filter.mp hfile).imp_right of_decide_eq_true
      obtain ⟨hmem, hconditions, hstatus⟩ := hboth
      obtain ⟨hdrive, hlive, hlike⟩ := (reindexConditions_iff hpath).mp hconditions
      refine ⟨hmem, hdrive, hlive, ?_, (startsLike_iff_start hplain).mp hlike⟩
      rcases hstatus with hstatus | hstatus | hstatus
      · rw [hstatus]
        decide
      · rw [hstatus]
        decide
      · rw [hstatus]
        decide

end

/-- A document below `/docs_a`, when there is one below `/docsXa` too. -/
def sampleDocuments : SearchWorld :=
  { SearchWorld.empty with index := { SearchWorld.empty.index with
    ftsDocs := [⟨1, "d".toList, "/docsXa/f".toList, "secret".toList⟩] } }

end AgentFs

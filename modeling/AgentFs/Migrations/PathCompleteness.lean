import AgentFs.Migrations.PathMerge
import Mathlib.Data.List.Induction

/-!
# What the path migration leaves

One pass of the loop moves the rows of one bare path to its canonical spelling; the whole
run does so for every bare path that it can prefix.  No version, comment or share is lost,
and a second run finds nothing to do.
-/

namespace AgentFs.PathNormalization

open Tabular

/-- A version without its number. -/
def unversioned (r : FileVersionRow) : FileVersionRow :=
  { r with version := 0 }

/-- `UPDATE file_versions SET path = ?`. -/
def renameVersions (driveId barePath canonicalPath : Text) (rows : List FileVersionRow) :
    List FileVersionRow :=
  update (fun r => r.driveId = driveId ∧ r.path = barePath)
    (fun r => { r with path := canonicalPath }) rows

/-- What one pass of the loop does to the tables. -/
structure PathStep (fts : FtsTables) (driveId barePath : Text) (db db' : PathTables) :
    Prop where
  valid : Valid db'
  versions : db'.fileVersions.map unversioned
    = (renameVersions driveId barePath ('/' :: barePath) db.fileVersions).map unversioned
  comments : db'.comments = renameComments driveId barePath ('/' :: barePath) db.comments
  shares : db'.shares = renameShares driveId barePath ('/' :: barePath) db.shares
  files : ∀ f ∈ db'.files,
    (f ∈ db.files ∧ ¬ f.At driveId barePath) ∨ f.At driveId ('/' :: barePath)
  chunks : ∀ c ∈ db'.contentChunks,
    (c ∈ db.contentChunks ∧ ¬ c.At driveId barePath) ∨ c.At driveId ('/' :: barePath)
  docs : ∀ d ∈ db'.ftsDocs,
    (d ∈ db.ftsDocs ∧ ¬ d.At driveId barePath) ∨ d.At driveId ('/' :: barePath)
  internal : Tracked fts.internal db.ftsInternal →
    VirtualReindexed driveId barePath db.ftsInternal db'.ftsInternal
  legacy : Tracked fts.legacy db.ftsLegacy →
    VirtualReindexed driveId barePath db.ftsLegacy db'.ftsLegacy

variable {driveId barePath : Text} {db : PathTables} {fts : FtsTables}

theorem cons_slash_ne (barePath : Text) :
  barePath ≠ '/' :: barePath
  := (List.cons_ne_self _ _).symm

theorem not_isBare_cons (barePath : Text) :
  ¬ IsBare ('/' :: barePath)
  := fun h => h rfl

/-! ### One pass -/

/-- A merge is a pass. -/
theorem mergeSplitPath_step (hvalid : Valid db) (now : Nat) (fts : FtsTables)
    (driveId barePath : Text)
    (summary : PathNormalizationMigrationSummary) :
  ∃ summary' db', mergeSplitPath now fts db driveId barePath ('/' :: barePath) summary
      = .ok (summary', db') ∧ PathStep fts driveId barePath db db'
  := by
  have hne := cons_slash_ne barePath
  obtain ⟨summary', rows, status, search, hrows, hreindexed, hok⟩ :=
    mergeSplitPath_ok hne (not_isBare_cons barePath) hvalid now fts driveId summary
  obtain ⟨rows', hrows', hkeyed, hmem, _⟩ := joinFiles_ok hne driveId hvalid.fileKeys
  rw [hrows] at hrows'
  cases hrows'
  have h := histories_readVersions driveId barePath ('/' :: barePath) hvalid.versionIds
  refine ⟨summary', _, hok, ?_⟩
  constructor
  case valid =>
    constructor
    case versionIds => exact hvalid.versionIds.map (fun r _ => placed_id r)
    case versionKeys => exact (renumberVersions_eq hvalid.versionIds hvalid.versionKeys h).2
    case fileKeys => exact hkeyed.update (fun f => fileKey_mergedFile _ _ _ _ f)
    case docKeys => exact hreindexed.docs_keyed
  case versions =>
    dsimp only
    unfold renameVersions update
    rw [List.map_map, List.map_map]
    apply List.map_congr_left
    intro r hr
    simp only [Function.comp]
    by_cases hof : OfEither driveId barePath ('/' :: barePath) r
    · obtain ⟨index, hindex⟩ := List.mem_iff_getElem?.mp ((h.2 r).mpr ⟨hr, hof⟩)
      rw [placed_of_getElem? h.1 hindex rfl]
      rcases hof.2 with hbare | hcanonical
      · rw [if_pos ⟨hof.1, hbare⟩]
        rfl
      · rw [if_neg (fun hat => hne (hat.2.symm.trans hcanonical))]
        unfold unversioned
        rw [← hcanonical]
    · have hout : r.id ∉ (readVersions db driveId barePath ('/' :: barePath)).map
          FileVersionRow.id := by
        intro hin
        obtain ⟨v, hv, hid⟩ := List.mem_map.mp hin
        have hvrow := (h.2 v).mp hv
        rw [hvalid.versionIds.eq_of_mem hr hvrow.1 hid.symm] at hof
        exact hof hvrow.2
      rw [placed_of_not_mem hout, if_neg (fun hat => hof ⟨hat.1, .inl hat.2⟩)]
  case comments => rfl
  case shares => rfl
  case files =>
    intro f hf
    rcases mem_update.mp hf with ⟨g, _, hat, rfl⟩ | ⟨hf, _⟩
    · exact .inr hat
    · exact hmem f hf
  case chunks => exact hreindexed.chunks
  case docs => exact hreindexed.docs
  case internal => exact hreindexed.internal
  case legacy => exact hreindexed.legacy

/-- The rows of a path, when only one of its spellings has a history. -/
theorem hasFileHistory_false {path : Text} (h : hasFileHistory db driveId path = false) :
  (∀ f ∈ db.files, ¬ f.At driveId path) ∧
    ∀ r ∈ db.fileVersions, ¬ (r.driveId = driveId ∧ r.path = path)
  := by
  unfold hasFileHistory at h
  rw [Bool.or_eq_false_iff, List.any_eq_false, List.any_eq_false] at h
  simpa using h

/-- Renaming a path is a pass, when only one of its spellings has a history. -/
theorem renameBareOnlyPath_step (hvalid : Valid db) (fts : FtsTables)
    (driveId barePath : Text)
    (hone : ¬ (hasFileHistory db driveId barePath = true ∧
      hasFileHistory db driveId ('/' :: barePath) = true)) (preferCanonical : Bool) :
  ∃ count db', renameBareOnlyPath fts db driveId barePath ('/' :: barePath) preferCanonical
      = .ok (count, db') ∧ PathStep fts driveId barePath db db'
  := by
  have hne := cons_slash_ne barePath
  have hapart : (∀ f ∈ db.files, ∀ g ∈ db.files, f.At driveId barePath →
        ¬ g.At driveId ('/' :: barePath)) ∧
      ∀ r ∈ db.fileVersions, ∀ s ∈ db.fileVersions, r.driveId = driveId ∧ r.path = barePath →
        ¬ (s.driveId = driveId ∧ s.path = '/' :: barePath) := by
    rcases not_and_or.mp hone with hbare | hcanonical
    · obtain ⟨hfiles, hversions⟩ := hasFileHistory_false (Bool.not_eq_true _ ▸ hbare)
      exact ⟨fun f hf _ _ hat => absurd hat (hfiles f hf),
        fun r hr _ _ hat => absurd hat (hversions r hr)⟩
    · obtain ⟨hfiles, hversions⟩ := hasFileHistory_false (Bool.not_eq_true _ ▸ hcanonical)
      exact ⟨fun _ _ g hg _ => hfiles g hg, fun _ _ s hs _ => hversions s hs⟩
  have hfiles : Keyed fileKey (update (fun f => f.At driveId barePath)
      (fun f => { f with path := '/' :: barePath }) db.files) := by
    apply hvalid.fileKeys.update_of_free
    · intro r _ s _ hr hs _
      unfold fileKey
      rw [hr.1, hr.2, hs.1, hs.2]
    · intro r hr s hs hr' _ heq
      unfold fileKey at heq
      simp only [Prod.mk.injEq] at heq
      exact hapart.1 r hr s hs hr' ⟨heq.2.symm.trans hr'.1, heq.1.symm⟩
  have hversions : Keyed versionKey (renameVersions driveId barePath ('/' :: barePath)
      db.fileVersions) := by
    apply hvalid.versionKeys.update_of_free
    · intro r _ s _ hr hs heq
      unfold versionKey at *
      simp only [Prod.mk.injEq] at heq
      rw [hr.1, hr.2, hs.1, hs.2, heq.2.2]
    · intro r hr s hs hr' _ heq
      unfold versionKey at heq
      simp only [Prod.mk.injEq] at heq
      exact hapart.2 r hr s hs hr' ⟨heq.2.1.symm.trans hr'.1, heq.1.symm⟩
  obtain ⟨has, search, hsearch, hreindexed⟩ := reconcile_ok barePath (not_isBare_cons barePath) fts
    { db.toSearchTables with
      files := update (fun f => f.At driveId barePath)
        (fun f => { f with path := '/' :: barePath }) db.files }
    driveId hvalid.docKeys preferCanonical
  unfold renameBareOnlyPath renameFiles
  rw [checked_of_keyed hfiles]
  simp only [bind, Except.bind]
  rw [show update (fun r : FileVersionRow => r.driveId = driveId ∧ r.path = barePath)
    (fun r => { r with path := '/' :: barePath }) db.fileVersions
      = renameVersions driveId barePath ('/' :: barePath) db.fileVersions from rfl,
    checked_of_keyed hversions]
  simp only [hsearch]
  refine ⟨_, _, rfl, ?_⟩
  constructor
  case valid =>
    constructor
    case versionIds => exact hvalid.versionIds.update (fun _ => rfl)
    case versionKeys => exact hversions
    case fileKeys =>
      dsimp only
      rw [hreindexed.files]
      exact hfiles
    case docKeys => exact hreindexed.docs_keyed
  case versions => rfl
  case comments => rfl
  case shares => rfl
  case files =>
    intro f hf
    dsimp only at hf
    rw [hreindexed.files] at hf
    rcases mem_update.mp hf with ⟨g, _, hbare, rfl⟩ | ⟨hf, hbare⟩
    · exact .inr ⟨hbare.1, rfl⟩
    · exact .inl ⟨hf, hbare⟩
  case chunks => exact hreindexed.chunks
  case docs => exact hreindexed.docs
  case internal => exact hreindexed.internal
  case legacy => exact hreindexed.legacy

/-- A pass succeeds.  It moves the rows of a path that can be prefixed, and nothing
otherwise. -/
theorem normalizeBarePath_ok (hvalid : Valid db) (now : Nat) (fts : FtsTables)
    (summary : PathNormalizationMigrationSummary) (b : BarePath) :
  ∃ summary' db', normalizeBarePath now fts (summary, db) b = .ok (summary', db') ∧
    (canSafelyPrefixBarePath b.path → PathStep fts b.driveId b.path db db') ∧
    (¬ canSafelyPrefixBarePath b.path → db' = db)
  := by
  by_cases hsafe : canSafelyPrefixBarePath b.path
  · by_cases hboth : hasFileHistory db b.driveId b.path = true ∧
        hasFileHistory db b.driveId ('/' :: b.path) = true
    · obtain ⟨summary', db', hok, hstep⟩ := mergeSplitPath_step hvalid now fts
        b.driveId b.path { summary with mergedPaths := summary.mergedPaths + 1 }
      refine ⟨summary', db', ?_, fun _ => hstep, fun h => absurd hsafe h⟩
      unfold normalizeBarePath
      simp only [hsafe, not_true, if_false, hboth, and_self, if_true]
      exact hok
    · obtain ⟨count, db', hok, hstep⟩ := renameBareOnlyPath_step hvalid fts
        b.driveId b.path hboth
        (!hasFileHistory db b.driveId b.path && hasFileHistory db b.driveId ('/' :: b.path))
      unfold normalizeBarePath
      simp only [hsafe, not_true, if_false, hboth]
      rw [hok]
      exact ⟨_, db', rfl, fun _ => hstep, fun h => h.elim⟩
  · unfold normalizeBarePath
    simp only [hsafe, not_false_eq_true, if_true]
    exact ⟨_, db, rfl, fun h => h.elim, fun _ => rfl⟩

/-! ### The bare paths -/

/-- The keys of the map are those of its rows. -/
def Indexed (seen : List (Text × BarePath)) (rows : List BarePath) : Prop :=
  (∀ e ∈ seen, e.2 ∈ rows ∧ e.1 = key e.2.driveId e.2.path) ∧
    ∀ b ∈ rows, ∃ e ∈ seen, e.1 = key b.driveId b.path

theorem Indexed.mapSet {seen : List (Text × BarePath)} {rows : List BarePath}
    (h : Indexed seen rows) (row : BarePath) :
  Indexed (mapSet seen (key row.driveId row.path) row) (rows ++ [row])
  := by
  constructor
  · intro e he
    unfold PathNormalization.mapSet at he
    split at he
    · obtain ⟨e', he', rfl⟩ := List.mem_map.mp he
      split
      · exact ⟨by simp, rfl⟩
      · exact ⟨List.mem_append_left _ (h.1 e' he').1, (h.1 e' he').2⟩
    · rcases List.mem_append.mp he with he | he
      · exact ⟨List.mem_append_left _ (h.1 e he).1, (h.1 e he).2⟩
      · rw [List.mem_singleton.mp he]
        exact ⟨by simp, rfl⟩
  · intro b hb
    unfold PathNormalization.mapSet
    split
    · rename_i hmem
      have hold : ∃ e ∈ seen, e.1 = key b.driveId b.path := by
        rcases List.mem_append.mp hb with hb | hb
        · exact h.2 b hb
        · rw [List.mem_singleton.mp hb]
          exact List.mem_map.mp hmem
      obtain ⟨e, he, hkey⟩ := hold
      refine ⟨_, List.mem_map.mpr ⟨e, he, rfl⟩, ?_⟩
      split
      · rename_i hsame
        exact hsame.symm.trans hkey
      · exact hkey
    · rcases List.mem_append.mp hb with hb | hb
      · obtain ⟨e, he, hkey⟩ := h.2 b hb
        exact ⟨e, List.mem_append_left _ he, hkey⟩
      · rw [List.mem_singleton.mp hb]
        exact ⟨_, List.mem_append_right _ (List.mem_singleton_self _), rfl⟩

theorem indexed_foldl (rows : List BarePath) :
  Indexed (rows.foldl (fun seen row => mapSet seen (key row.driveId row.path) row) []) rows
  := by
  induction rows using List.reverseRecOn with
  | nil => exact ⟨fun e he => absurd he List.not_mem_nil, fun b hb => absurd hb List.not_mem_nil⟩
  | append_singleton rows row ih =>
      rw [List.foldl_append]
      exact ih.mapSet row

/-- A key determines the drive and the path, when the drive has no NUL. -/
theorem key_injective {d d' p p' : Text} (hd : '\x00' ∉ d) (hd' : '\x00' ∉ d')
    (h : key d p = key d' p') :
  d = d' ∧ p = p'
  := by
  unfold key at h
  induction d generalizing d' with
  | nil =>
      cases d' with
      | nil =>
          simp only [List.nil_append, List.cons.injEq, true_and] at h
          exact ⟨rfl, h⟩
      | cons c d' =>
          simp only [List.nil_append, List.cons_append, List.cons.injEq] at h
          exact absurd (h.1 ▸ List.mem_cons_self) hd'
  | cons c d ih =>
      cases d' with
      | nil =>
          simp only [List.nil_append, List.cons_append, List.cons.injEq] at h
          exact absurd (h.1 ▸ List.mem_cons_self) hd
      | cons c' d' =>
          simp only [List.cons_append, List.cons.injEq] at h
          obtain ⟨hdd, hpp⟩ := ih (fun hin => hd (List.mem_cons_of_mem _ hin))
            (fun hin => hd' (List.mem_cons_of_mem _ hin)) h.2
          exact ⟨by rw [h.1, hdd], hpp⟩

/-- Every path of the list is a bare path of one of the six tables. -/
theorem of_mem_collectBarePaths {localeCompare : Text → Text → Int} {b : BarePath}
    (hb : b ∈ collectBarePaths localeCompare db) :
  b ∈ locations db ∧ IsBare b.path
  := by
  unfold collectBarePaths at hb
  rw [List.mem_insertionSort] at hb
  obtain ⟨e, he, rfl⟩ := List.mem_map.mp hb
  have hrow := ((indexed_foldl _).1 e he).1
  rw [List.mem_filter, decide_eq_true_iff] at hrow
  exact hrow

/-- Every bare path of the six tables is in the list, when no drive has a NUL. -/
theorem mem_collectBarePaths {localeCompare : Text → Text → Int}
    (hdrives : ∀ b ∈ locations db, '\x00' ∉ b.driveId) {b : BarePath} (hb : b ∈ locations db)
    (hbare : IsBare b.path) :
  b ∈ collectBarePaths localeCompare db
  := by
  unfold collectBarePaths
  rw [List.mem_insertionSort]
  have hrow : b ∈ (locations db).filter (fun b => IsBare b.path) := by
    rw [List.mem_filter, decide_eq_true_iff]
    exact ⟨hb, hbare⟩
  obtain ⟨e, he, hkey⟩ := (indexed_foldl _).2 b hrow
  obtain ⟨hmem, hkeyed⟩ := (indexed_foldl _).1 e he
  have hsame := key_injective (hdrives e.2 (List.mem_of_mem_filter hmem)) (hdrives b hb)
    (hkeyed.symm.trans hkey)
  have heta : e.2 = ⟨e.2.driveId, e.2.path⟩ := rfl
  rw [List.mem_map]
  refine ⟨e, he, ?_⟩
  rw [heta, hsame.1, hsame.2]

/-! ### The whole run -/

/-- The path a row has after the passes over `L`. -/
def moved (L : List BarePath) (driveId path : Text) : Text :=
  if ⟨driveId, path⟩ ∈ L ∧ canSafelyPrefixBarePath path then '/' :: path else path

/-- The path a row has after the migration. -/
def canonicalPath (path : Text) : Text :=
  if IsBare path ∧ canSafelyPrefixBarePath path then '/' :: path else path

/-- The rows of a table with a path in a drive. -/
structure PathColumn (ρ : Type) where
  drive : ρ → Text
  path : ρ → Text
  set : Text → ρ → ρ
  drive_set : ∀ p r, drive (set p r) = drive r
  path_set : ∀ p r, path (set p r) = p
  set_set : ∀ p q r, set p (set q r) = set p r
  set_path : ∀ r, set (path r) r = r

def versionPath : PathColumn FileVersionRow where
  drive := FileVersionRow.driveId
  path := FileVersionRow.path
  set p r := { r with path := p }
  drive_set _ _ := rfl
  path_set _ _ := rfl
  set_set _ _ _ := rfl
  set_path _ := rfl

def commentPath : PathColumn CommentRow where
  drive := CommentRow.driveId
  path := CommentRow.path
  set p c := { c with path := p }
  drive_set _ _ := rfl
  path_set _ _ := rfl
  set_set _ _ _ := rfl
  set_path _ := rfl

def sharePath : PathColumn ShareRow where
  drive := ShareRow.driveId
  path := ShareRow.path
  set p s := { s with path := p }
  drive_set _ _ := rfl
  path_set _ _ := rfl
  set_set _ _ _ := rfl
  set_path _ := rfl

/-- The rows after the passes over `L`. -/
def PathColumn.move {ρ : Type} (col : PathColumn ρ) (L : List BarePath) (rows : List ρ) :
    List ρ :=
  rows.map (fun r => col.set (moved L (col.drive r) (col.path r)) r)

theorem PathColumn.move_nil {ρ : Type} (col : PathColumn ρ) (rows : List ρ) :
  col.move [] rows = rows
  := by
  unfold move
  have hstay : ∀ r ∈ rows, col.set (moved [] (col.drive r) (col.path r)) r = r := by
    intro r _
    unfold moved
    rw [if_neg (fun h => absurd h.1 List.not_mem_nil), col.set_path]
  rw [List.map_congr_left hstay]
  exact List.map_id' rows

/-- A path that is skipped moves no row. -/
theorem PathColumn.move_cons_of_skipped {ρ : Type} (col : PathColumn ρ) {b : BarePath}
    {L : List BarePath} (h : ¬ canSafelyPrefixBarePath b.path) (rows : List ρ) :
  col.move (b :: L) rows = col.move L rows
  := by
  unfold move
  apply List.map_congr_left
  intro r _
  have hmoved : moved (b :: L) (col.drive r) (col.path r) = moved L (col.drive r) (col.path r) := by
    unfold moved
    by_cases heq : (⟨col.drive r, col.path r⟩ : BarePath) = b
    · have hpath : ¬ canSafelyPrefixBarePath (col.path r) := by
        rw [← heq] at h
        exact h
      rw [if_neg (fun hm => hpath hm.2), if_neg (fun hm => hpath hm.2)]
    · simp only [List.mem_cons, heq, false_or]
  rw [hmoved]

/-- A path that is not skipped moves its rows first. -/
theorem PathColumn.move_cons {ρ : Type} (col : PathColumn ρ) {b : BarePath} {L : List BarePath}
    (h : canSafelyPrefixBarePath b.path) (hbare : ∀ x ∈ L, IsBare x.path) (rows : List ρ) :
  col.move L (update (fun r => col.drive r = b.driveId ∧ col.path r = b.path)
      (col.set ('/' :: b.path)) rows)
    = col.move (b :: L) rows
  := by
  unfold move update
  rw [List.map_map]
  apply List.map_congr_left
  intro r _
  simp only [Function.comp]
  by_cases hat : col.drive r = b.driveId ∧ col.path r = b.path
  · have hnot : (⟨col.drive r, '/' :: b.path⟩ : BarePath) ∉ L :=
      fun hin => not_isBare_cons b.path (hbare _ hin)
    have hin : (⟨col.drive r, col.path r⟩ : BarePath) ∈ b :: L := by
      rw [hat.1, hat.2]
      exact List.mem_cons_self
    have hsafe : canSafelyPrefixBarePath (col.path r) := by
      rw [hat.2]
      exact h
    rw [if_pos hat, col.drive_set, col.path_set, col.set_set]
    unfold moved
    rw [if_neg (fun hm => hnot hm.1), if_pos ⟨hin, hsafe⟩, hat.2]
  · have hne : (⟨col.drive r, col.path r⟩ : BarePath) ≠ b := by
      intro heq
      rw [← heq] at hat
      exact hat ⟨rfl, rfl⟩
    rw [if_neg hat]
    unfold moved
    simp only [List.mem_cons, hne, false_or]

/-- The rows that no pass over `L` moves keep a bare path; the others have lost it. -/
def VirtualRun (L : List BarePath) (rows rows' : Option (List FtsRow)) : Prop :=
  ∀ l' ∈ rows', ∃ l ∈ rows, ∀ r ∈ l', IsBare r.path →
    r ∈ l ∧ (⟨r.driveId, r.path⟩ ∈ L → ¬ canSafelyPrefixBarePath r.path)

/-- What the passes over `L` do to the tables. -/
structure PathRun (fts : FtsTables) (L : List BarePath) (db db' : PathTables) : Prop where
  valid : Valid db'
  versions : db'.fileVersions.map unversioned
    = (versionPath.move L db.fileVersions).map unversioned
  comments : db'.comments = commentPath.move L db.comments
  shares : db'.shares = sharePath.move L db.shares
  left_bare : ∀ b ∈ locations db', IsBare b.path →
    b ∈ locations db ∧ (b ∈ L → ¬ canSafelyPrefixBarePath b.path)
  internal : Tracked fts.internal db.ftsInternal → VirtualRun L db.ftsInternal db'.ftsInternal
  legacy : Tracked fts.legacy db.ftsLegacy → VirtualRun L db.ftsLegacy db'.ftsLegacy

theorem mem_locations {b : BarePath} :
  b ∈ locations db ↔
    (∃ f ∈ db.files, f.At b.driveId b.path) ∨
    (∃ r ∈ db.fileVersions, r.driveId = b.driveId ∧ r.path = b.path) ∨
    (∃ c ∈ db.comments, c.driveId = b.driveId ∧ c.path = b.path) ∨
    (∃ s ∈ db.shares, s.driveId = b.driveId ∧ s.path = b.path) ∨
    (∃ c ∈ db.contentChunks, c.At b.driveId b.path) ∨
    (∃ d ∈ db.ftsDocs, d.At b.driveId b.path)
  := by
  obtain ⟨d, p⟩ := b
  simp [locations, IndexedFile.At, ChunkRow.At, FtsDocRow.At, BarePath.mk.injEq]

/-- The places of the rows of a column after a renaming. -/
theorem mem_update_path {ρ : Type} (col : PathColumn ρ) {d p : Text} {rows : List ρ}
    {d' p' : Text} (hbare : IsBare p')
    (h : ∃ r ∈ update (fun r => col.drive r = d ∧ col.path r = p) (col.set ('/' :: p)) rows,
      col.drive r = d' ∧ col.path r = p') :
  (∃ r ∈ rows, col.drive r = d' ∧ col.path r = p') ∧ ¬ (d' = d ∧ p' = p)
  := by
  obtain ⟨r, hr, hd, hp⟩ := h
  rcases mem_update.mp hr with ⟨s, _, _, rfl⟩ | ⟨hr, hnot⟩
  · rw [col.path_set] at hp
    rw [← hp] at hbare
    exact absurd hbare (not_isBare_cons p)
  · refine ⟨⟨r, hr, hd, hp⟩, ?_⟩
    rintro ⟨rfl, rfl⟩
    exact hnot ⟨hd, hp⟩

/-- The places of the versions, read from the versions without their numbers. -/
theorem exists_unversioned {rows : List FileVersionRow} {d p : Text} :
  (∃ r ∈ rows.map unversioned, r.driveId = d ∧ r.path = p)
    ↔ ∃ r ∈ rows, r.driveId = d ∧ r.path = p
  := by
  constructor
  · rintro ⟨r, hr, hat⟩
    obtain ⟨s, hs, rfl⟩ := List.mem_map.mp hr
    exact ⟨s, hs, hat⟩
  · rintro ⟨r, hr, hat⟩
    exact ⟨unversioned r, List.mem_map_of_mem hr, hat⟩

/-- After a pass, the bare paths of the six tables are those of before without the one of
the pass. -/
theorem PathStep.mem_locations {db' : PathTables} (h : PathStep fts driveId barePath db db')
    {b : BarePath} (hb : b ∈ locations db') (hbare : IsBare b.path) :
  b ∈ locations db ∧ b ≠ ⟨driveId, barePath⟩
  := by
  obtain ⟨d, p⟩ := b
  have hcanonical : p ≠ '/' :: barePath := by
    rintro rfl
    exact not_isBare_cons barePath hbare
  rw [PathNormalization.mem_locations] at hb ⊢
  rw [Ne, BarePath.mk.injEq]
  rcases hb with ⟨f, hf, hat⟩ | hb | hb | hb | ⟨c, hc, hat⟩ | ⟨e, he, hat⟩
  · rcases h.files f hf with ⟨hf, hnot⟩ | hcan
    · refine ⟨.inl ⟨f, hf, hat⟩, ?_⟩
      rintro ⟨rfl, rfl⟩
      exact hnot hat
    · exact absurd (hat.2.symm.trans hcan.2) hcanonical
  · rw [← exists_unversioned, h.versions, exists_unversioned] at hb
    obtain ⟨hold, hnot⟩ := mem_update_path versionPath hbare hb
    exact ⟨.inr (.inl hold), hnot⟩
  · rw [h.comments] at hb
    obtain ⟨hold, hnot⟩ := mem_update_path commentPath hbare hb
    exact ⟨.inr (.inr (.inl hold)), hnot⟩
  · rw [h.shares] at hb
    obtain ⟨hold, hnot⟩ := mem_update_path sharePath hbare hb
    exact ⟨.inr (.inr (.inr (.inl hold))), hnot⟩
  · rcases h.chunks c hc with ⟨hc, hnot⟩ | hcan
    · refine ⟨.inr (.inr (.inr (.inr (.inl ⟨c, hc, hat⟩)))), ?_⟩
      rintro ⟨rfl, rfl⟩
      exact hnot hat
    · exact absurd (hat.2.symm.trans hcan.2) hcanonical
  · rcases h.docs e he with ⟨he, hnot⟩ | hcan
    · refine ⟨.inr (.inr (.inr (.inr (.inr ⟨e, he, hat⟩)))), ?_⟩
      rintro ⟨rfl, rfl⟩
      exact hnot hat
    · exact absurd (hat.2.symm.trans hcan.2) hcanonical

theorem PathRun.nil (hvalid : Valid db) :
  PathRun fts [] db db
  where
  valid := hvalid
  versions := by rw [versionPath.move_nil]
  comments := (commentPath.move_nil _).symm
  shares := (sharePath.move_nil _).symm
  left_bare b hb _ := ⟨hb, fun hin => absurd hin List.not_mem_nil⟩
  internal _ l hl := ⟨l, hl, fun r hr _ => ⟨hr, fun hin => absurd hin List.not_mem_nil⟩⟩
  legacy _ l hl := ⟨l, hl, fun r hr _ => ⟨hr, fun hin => absurd hin List.not_mem_nil⟩⟩

/-- A first pass that is skipped. -/
theorem PathRun.cons_of_skipped {b : BarePath} {L : List BarePath} {db' : PathTables}
    (hskip : ¬ canSafelyPrefixBarePath b.path) (h : PathRun fts L db db') :
  PathRun fts (b :: L) db db'
  := by
  have hvirtual : ∀ {rows rows' : Option (List FtsRow)}, VirtualRun L rows rows' →
      VirtualRun (b :: L) rows rows' := by
    intro rows rows' hrun l' hl'
    obtain ⟨l, hl, hrows⟩ := hrun l' hl'
    refine ⟨l, hl, ?_⟩
    intro r hr hbare
    refine ⟨(hrows r hr hbare).1, ?_⟩
    intro hin
    rcases List.mem_cons.mp hin with heq | hin
    · rw [← heq] at hskip
      exact hskip
    · exact (hrows r hr hbare).2 hin
  constructor
  case valid => exact h.valid
  case versions => rw [h.versions, versionPath.move_cons_of_skipped hskip]
  case comments => rw [h.comments, commentPath.move_cons_of_skipped hskip]
  case shares => rw [h.shares, sharePath.move_cons_of_skipped hskip]
  case left_bare =>
    intro x hx hbare
    refine ⟨(h.left_bare x hx hbare).1, ?_⟩
    intro hin
    rcases List.mem_cons.mp hin with rfl | hin
    · exact hskip
    · exact (h.left_bare x hx hbare).2 hin
  case internal => exact fun htracked => hvirtual (h.internal htracked)
  case legacy => exact fun htracked => hvirtual (h.legacy htracked)

/-- What a pass and the passes after it do to a full-text table. -/
theorem VirtualRun.cons {b : BarePath} {L : List BarePath} {rows rows' rows'' : Option (List FtsRow)}
    (hstep : VirtualReindexed b.driveId b.path rows rows') (hrun : VirtualRun L rows' rows'') :
  VirtualRun (b :: L) rows rows''
  := by
  intro l'' hl''
  obtain ⟨l', hl', hrows'⟩ := hrun l'' hl''
  obtain ⟨l, hl, hrows⟩ := hstep l' hl'
  refine ⟨l, hl, ?_⟩
  intro r hr hbare
  obtain ⟨hr', hleft⟩ := hrows' r hr hbare
  obtain ⟨hr, hnot⟩ := hrows r hr' hbare
  refine ⟨hr, ?_⟩
  intro hin
  rcases List.mem_cons.mp hin with heq | hin
  · rw [← heq] at hnot
    exact absurd ⟨rfl, rfl⟩ hnot
  · exact hleft hin

/-- A first pass that is not skipped. -/
theorem PathRun.cons {b : BarePath} {L : List BarePath} {db' db'' : PathTables}
    (hsafe : canSafelyPrefixBarePath b.path) (hbare : ∀ x ∈ L, IsBare x.path)
    (hstep : PathStep fts b.driveId b.path db db') (h : PathRun fts L db' db'') :
  PathRun fts (b :: L) db db''
  := by
  constructor
  case valid => exact h.valid
  case versions =>
    have hmove : ∀ rows, (versionPath.move L rows).map unversioned
        = versionPath.move L (rows.map unversioned) := by
      intro rows
      unfold PathColumn.move
      rw [List.map_map, List.map_map]
      rfl
    rw [h.versions, hmove, hstep.versions, ← hmove]
    exact congrArg (List.map unversioned) (versionPath.move_cons hsafe hbare db.fileVersions)
  case comments =>
    rw [h.comments, hstep.comments]
    exact commentPath.move_cons hsafe hbare db.comments
  case shares =>
    rw [h.shares, hstep.shares]
    exact sharePath.move_cons hsafe hbare db.shares
  case left_bare =>
    intro x hx hxbare
    obtain ⟨hx', hleft⟩ := h.left_bare x hx hxbare
    obtain ⟨hold, hne⟩ := hstep.mem_locations hx' hxbare
    refine ⟨hold, ?_⟩
    intro hin
    rcases List.mem_cons.mp hin with rfl | hin
    · exact absurd rfl hne
    · exact hleft hin
  case internal =>
    intro htracked
    have hfirst := hstep.internal htracked
    exact .cons hfirst (h.internal (htracked.step hfirst))
  case legacy =>
    intro htracked
    have hfirst := hstep.legacy htracked
    exact .cons hfirst (h.legacy (htracked.step hfirst))

/-- The loop runs to its end. -/
theorem foldlM_normalizeBarePath {L : List BarePath} (hbare : ∀ b ∈ L, IsBare b.path)
    (hvalid : Valid db) (now : Nat) (fts : FtsTables)
    (summary : PathNormalizationMigrationSummary) :
  ∃ summary' db', L.foldlM (normalizeBarePath now fts) (summary, db) = .ok (summary', db') ∧
    PathRun fts L db db'
  := by
  induction L generalizing db summary with
  | nil => exact ⟨summary, db, rfl, .nil hvalid⟩
  | cons b L ih =>
      have hrest : ∀ x ∈ L, IsBare x.path := fun x hx => hbare x (List.mem_cons_of_mem _ hx)
      obtain ⟨summary₁, db₁, hok, hstep, hskip⟩ := normalizeBarePath_ok hvalid now fts summary b
      by_cases hsafe : canSafelyPrefixBarePath b.path
      · obtain ⟨summary₂, db₂, hrun, hdb₂⟩ := ih hrest (hstep hsafe).valid summary₁
        refine ⟨summary₂, db₂, ?_, .cons hsafe hrest (hstep hsafe) hdb₂⟩
        rw [List.foldlM_cons, hok]
        exact hrun
      · rw [hskip hsafe] at hok
        obtain ⟨summary₂, db₂, hrun, hdb₂⟩ := ih hrest hvalid summary₁
        refine ⟨summary₂, db₂, ?_, .cons_of_skipped hsafe hdb₂⟩
        rw [List.foldlM_cons, hok]
        exact hrun

/-- Where nothing can be prefixed, the loop changes nothing. -/
theorem foldlM_skipped {L : List BarePath} (hskip : ∀ b ∈ L, ¬ canSafelyPrefixBarePath b.path)
    (now : Nat) (fts : FtsTables) (summary : PathNormalizationMigrationSummary) :
  ∃ summary', L.foldlM (normalizeBarePath now fts) (summary, db) = .ok (summary', db)
  := by
  induction L generalizing summary with
  | nil => exact ⟨summary, rfl⟩
  | cons b L ih =>
      have hfirst : normalizeBarePath now fts (summary, db) b
          = .ok ({ summary with skippedPaths := summary.skippedPaths + 1 }, db) := by
        unfold normalizeBarePath
        exact if_pos (hskip b List.mem_cons_self)
      obtain ⟨summary', hrun⟩ := ih (fun x hx => hskip x (List.mem_cons_of_mem _ hx))
        { summary with skippedPaths := summary.skippedPaths + 1 }
      refine ⟨summary', ?_⟩
      rw [List.foldlM_cons, hfirst]
      exact hrun

/-! ### Completeness -/

/-- What the migration makes of a database. -/
structure Migrated (db db' : PathTables) : Prop where
  /-- No path of the six tables that can be prefixed is left bare. -/
  complete : ∀ b ∈ locations db', IsBare b.path → ¬ canSafelyPrefixBarePath b.path
  /-- Every version is there, under its canonical path. -/
  versions : db'.fileVersions.map unversioned
    = db.fileVersions.map (fun r => unversioned { r with path := canonicalPath r.path })
  /-- Every comment is there, under its canonical path. -/
  comments : db'.comments = db.comments.map (fun c => { c with path := canonicalPath c.path })
  /-- Every share is there, under its canonical path. -/
  shares : db'.shares = db.shares.map (fun s => { s with path := canonicalPath s.path })
  /-- A full-text row that is left bare has a path that none of the six tables had. -/
  internal : ∀ l' ∈ db'.ftsInternal, ∀ r ∈ l', IsBare r.path → canSafelyPrefixBarePath r.path →
    ⟨r.driveId, r.path⟩ ∉ locations db
  legacy : ∀ l' ∈ db'.ftsLegacy, ∀ r ∈ l', IsBare r.path → canSafelyPrefixBarePath r.path →
    ⟨r.driveId, r.path⟩ ∉ locations db

/-- The rows of a full-text table are tracked when the migration begins. -/
theorem tracked_self (rows : Option (List FtsRow)) :
  Tracked (rows.map .mk) rows
  := by
  intro l hl
  rw [hl]
  exact ⟨⟨l⟩, rfl, fun r hr _ => hr⟩

/-- Moving the bare paths of the tables is making every path canonical. -/
theorem moved_collectBarePaths {localeCompare : Text → Text → Int}
    (hdrives : ∀ b ∈ locations db, '\x00' ∉ b.driveId) {d p : Text}
    (hat : ⟨d, p⟩ ∈ locations db) :
  moved (collectBarePaths localeCompare db) d p = canonicalPath p
  := by
  have hmem : (⟨d, p⟩ : BarePath) ∈ collectBarePaths localeCompare db ↔ IsBare p :=
    ⟨fun h => (of_mem_collectBarePaths h).2, fun h => mem_collectBarePaths hdrives hat h⟩
  unfold moved canonicalPath
  simp only [hmem]

/-- The rows of a column after the passes over all bare paths. -/
theorem PathColumn.move_collectBarePaths {ρ : Type} (col : PathColumn ρ)
    {localeCompare : Text → Text → Int} (hdrives : ∀ b ∈ locations db, '\x00' ∉ b.driveId)
    {rows : List ρ} (hrows : ∀ r ∈ rows, ⟨col.drive r, col.path r⟩ ∈ locations db) :
  col.move (collectBarePaths localeCompare db) rows
    = rows.map (fun r => col.set (canonicalPath (col.path r)) r)
  := by
  unfold move
  apply List.map_congr_left
  intro r hr
  rw [moved_collectBarePaths hdrives (hrows r hr)]

/-- Passes over all bare paths complete the migration. -/
theorem PathRun.migrated {localeCompare : Text → Text → Int} {db' : PathTables}
    (hdrives : ∀ b ∈ locations db, '\x00' ∉ b.driveId)
    (h : PathRun ⟨db.ftsInternal.map .mk, db.ftsLegacy.map .mk⟩
      (collectBarePaths localeCompare db) db db') :
  Migrated db db'
  := by
  constructor
  case complete =>
    intro b hb hbare
    obtain ⟨hold, hskip⟩ := h.left_bare b hb hbare
    exact hskip (mem_collectBarePaths hdrives hold hbare)
  case versions =>
    rw [h.versions, versionPath.move_collectBarePaths hdrives, List.map_map]
    · rfl
    · intro r hr
      exact mem_locations.mpr (.inr (.inl ⟨r, hr, rfl, rfl⟩))
  case comments =>
    rw [h.comments, commentPath.move_collectBarePaths hdrives]
    · rfl
    · intro c hc
      exact mem_locations.mpr (.inr (.inr (.inl ⟨c, hc, rfl, rfl⟩)))
  case shares =>
    rw [h.shares, sharePath.move_collectBarePaths hdrives]
    · rfl
    · intro s hs
      exact mem_locations.mpr (.inr (.inr (.inr (.inl ⟨s, hs, rfl, rfl⟩))))
  case internal =>
    intro l' hl' r hr hbare hsafe hin
    obtain ⟨_, _, hrows⟩ := h.internal (tracked_self _) l' hl'
    exact (hrows r hr hbare).2 (mem_collectBarePaths hdrives hin hbare) hsafe
  case legacy =>
    intro l' hl' r hr hbare hsafe hin
    obtain ⟨_, _, hrows⟩ := h.legacy (tracked_self _) l' hl'
    exact (hrows r hr hbare).2 (mem_collectBarePaths hdrives hin hbare) hsafe

/-- A run over a database on which the migration is complete changes nothing. -/
theorem runPathNormalizationMigration_of_complete
    (h : ∀ b ∈ locations db, IsBare b.path → ¬ canSafelyPrefixBarePath b.path)
    (localeCompare : Text → Text → Int) (now : Nat) :
  ∃ summary, runPathNormalizationMigration localeCompare now db = .ok (summary, db)
  := by
  unfold runPathNormalizationMigration
  dsimp only
  split
  · exact ⟨none, rfl⟩
  · obtain ⟨summary, hrun⟩ := @foldlM_skipped db (collectBarePaths localeCompare db)
      (fun b hb => h b (of_mem_collectBarePaths hb).1 (of_mem_collectBarePaths hb).2) now
      ⟨db.ftsInternal.map .mk, db.ftsLegacy.map .mk⟩ {}
    rw [hrun]
    exact ⟨some summary, rfl⟩

/-- The migration succeeds on every database whose drive ids have no NUL.  It leaves no bare
path behind that can be prefixed and loses no version, comment or share, and a second run
changes nothing. -/
theorem runPathNormalizationMigration_migrates (hvalid : Valid db)
    (hdrives : ∀ b ∈ locations db, '\x00' ∉ b.driveId)
    (localeCompare : Text → Text → Int) (now : Nat) :
  ∃ summary db', runPathNormalizationMigration localeCompare now db = .ok (summary, db') ∧
    Migrated db db' ∧
    ∀ later, ∃ summary',
      runPathNormalizationMigration localeCompare later db' = .ok (summary', db')
  := by
  have hbare : ∀ b ∈ collectBarePaths localeCompare db, IsBare b.path :=
    fun b hb => (of_mem_collectBarePaths hb).2
  obtain ⟨summary, db', hrun, hpath⟩ := foldlM_normalizeBarePath hbare hvalid now
    ⟨db.ftsInternal.map .mk, db.ftsLegacy.map .mk⟩ {}
  have hmigrated := hpath.migrated hdrives
  have hagain := runPathNormalizationMigration_of_complete hmigrated.complete localeCompare
  by_cases hnone : collectBarePaths localeCompare db = []
  · rw [hnone] at hrun
    cases hrun
    refine ⟨none, db, ?_, hmigrated, hagain⟩
    unfold runPathNormalizationMigration
    simp only [hnone, if_true]
    rfl
  · refine ⟨some summary, db', ?_, hmigrated, hagain⟩
    unfold runPathNormalizationMigration
    simp only [hnone, if_false, hrun]
    rfl

theorem runPathNormalizationMigration_migrates_sampleSplit :
  ∃ summary db', runPathNormalizationMigration (fun _ _ => 0) 0 sampleSplit
      = .ok (summary, db') ∧ Migrated sampleSplit db' ∧
    ∀ later, ∃ summary',
      runPathNormalizationMigration (fun _ _ => 0) later db' = .ok (summary', db')
  := runPathNormalizationMigration_migrates valid_sampleSplit (by decide) (fun _ _ => 0) 0

/-! ### Drive ids with a NUL -/

/-- A comment on a path in a drive. -/
def sampleComment (id driveId path : Text) : CommentRow where
  id := id
  parentId := none
  orgId := "o".toList
  driveId := driveId
  path := path
  fileVersionId := none
  body := []
  author := "u".toList
  resolved := false
  resolvedBy := none
  resolvedAt := none
  createdAt := 0
  updatedAt := 0
  isDeleted := false

/-- Two comments whose drives and paths have one key. -/
def sampleNul : PathTables where
  toSearchTables := SearchTables.empty
  fileVersions := []
  comments := [
    sampleComment "1".toList "a\x00b".toList "c".toList,
    sampleComment "2".toList "a".toList "b\x00c".toList]
  shares := []

/-- A full-text row whose path no other table has. -/
def sampleLegacyOnly : PathTables where
  toSearchTables := { SearchTables.empty with
    ftsLegacy := some [⟨1, "d".toList, "a".toList, []⟩] }
  fileVersions := []
  comments := []
  shares := []

/-- One of two paths with one key is left bare, and so is a path that only a full-text table
has. -/
theorem not_migrated_sampleNul :
  (Valid sampleNul ∧ ∃ summary db',
    runPathNormalizationMigration (fun _ _ => 0) 0 sampleNul = .ok (summary, db') ∧
    ∃ b ∈ locations db', IsBare b.path ∧ canSafelyPrefixBarePath b.path) ∧
  (Valid sampleLegacyOnly ∧ ∃ summary db',
    runPathNormalizationMigration (fun _ _ => 0) 0 sampleLegacyOnly = .ok (summary, db') ∧
    ∃ l ∈ db'.ftsLegacy, ∃ r ∈ l, IsBare r.path ∧ canSafelyPrefixBarePath r.path)
  := by
  refine ⟨⟨⟨by decide, by decide, by decide, by decide⟩, ?_⟩,
    ⟨⟨by decide, by decide, by decide, by decide⟩, ?_⟩⟩
  · refine ⟨some { renamedPaths := 1, commentsRemapped := 1 }, { sampleNul with
      comments := [
        sampleComment "1".toList "a\x00b".toList "c".toList,
        sampleComment "2".toList "a".toList "/b\x00c".toList] }, by decide +kernel, ?_⟩
    exact ⟨⟨"a\x00b".toList, "c".toList⟩, by decide, by decide, by decide⟩
  · refine ⟨none, sampleLegacyOnly, by decide +kernel, ?_⟩
    exact ⟨_, rfl, _, List.mem_singleton_self _, by decide, by decide⟩

end AgentFs.PathNormalization

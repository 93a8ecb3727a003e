import AgentFs.Lib.Update
import AgentFs.Search.Tables
import AgentFs.Share.Links
import Mathlib.Data.List.Sort

/-!
# The path migration

The functions of `db/path-normalization-migration.ts`.  Old clients stored paths without
the leading `/`; the migration gives every such path its canonical spelling and, where both
spellings have a history, merges the two histories into one.
-/

namespace AgentFs

open Tabular

/-- The tables the path migration reads and writes. -/
structure PathTables extends SearchTables where
  fileVersions : List FileVersionRow
  comments : List CommentRow
  shares : List ShareRow
  deriving DecidableEq, Repr

structure PathNormalizationMigrationSummary where
  renamedPaths : Nat := 0
  mergedPaths : Nat := 0
  versionsRenumbered : Nat := 0
  commentsRemapped : Nat := 0
  skippedPaths : Nat := 0
  deriving DecidableEq, Repr

structure BarePath where
  driveId : Text
  path : Text
  deriving DecidableEq, Repr

namespace PathNormalization

/-- `path NOT LIKE '/%'`. -/
def IsBare (path : Text) : Prop :=
  path.head? ≠ some '/'

instance (path : Text) : Decidable (IsBare path) :=
  inferInstanceAs (Decidable (¬ _))

/-- The text a drive and a path are looked up by. -/
def key (driveId path : Text) : Text :=
  driveId ++ '\x00' :: path

/-- Where the rows of the six tables are. -/
def locations (db : PathTables) : List BarePath :=
  db.files.map (fun f => ⟨f.driveId, f.path⟩)
    ++ db.fileVersions.map (fun r => ⟨r.driveId, r.path⟩)
    ++ db.comments.map (fun c => ⟨c.driveId, c.path⟩)
    ++ db.shares.map (fun s => ⟨s.driveId, s.path⟩)
    ++ db.contentChunks.map (fun c => ⟨c.driveId, c.filePath⟩)
    ++ db.ftsDocs.map (fun d => ⟨d.driveId, d.path⟩)

/-- `Map.set` on a map that remembers the order of its keys. -/
def mapSet (seen : List (Text × BarePath)) (k : Text) (row : BarePath) :
    List (Text × BarePath) :=
  if k ∈ seen.map Prod.fst then seen.map (fun e => if e.1 = k then (k, row) else e)
  else seen ++ [(k, row)]

/-- The order of two paths in the result of `collectBarePaths`. -/
def Before (localeCompare : Text → Text → Int) (a b : BarePath) : Prop :=
  localeCompare a.driveId b.driveId < 0 ∨
    localeCompare a.driveId b.driveId = 0 ∧ localeCompare a.path b.path ≤ 0

instance (localeCompare : Text → Text → Int) : DecidableRel (Before localeCompare) :=
  fun _ _ => inferInstanceAs (Decidable (_ ∨ _))

/-- The bare paths of the six tables, each once. -/
def collectBarePaths (localeCompare : Text → Text → Int) (db : PathTables) : List BarePath :=
  let rows := (locations db).filter (fun b => IsBare b.path)
  let seen := rows.foldl (fun seen row => mapSet seen (key row.driveId row.path) row) []
  (seen.map Prod.snd).insertionSort (Before localeCompare)

def hasFileHistory (db : PathTables) (driveId path : Text) : Bool :=
  db.files.any (fun f => f.At driveId path) ||
    db.fileVersions.any (fun r => r.driveId = driveId ∧ r.path = path)

/-! ### The search index -/

def deleteChunks (db : SearchTables) (driveId path : Text) : SearchTables :=
  { db with
    toIndexTables := db.toIndexTables.deleteChunksWhere (fun c => c.At driveId path) }

/-- Keep the chunks of one spelling, under the canonical path. -/
def reconcileChunks (db : SearchTables) (driveId barePath canonicalPath : Text)
    (preferCanonical : Bool) : Bool × SearchTables :=
  let preferredPath := if preferCanonical then canonicalPath else barePath
  let discardedPath := if preferCanonical then barePath else canonicalPath
  let hasPreferred := db.contentChunks.any (fun c => c.At driveId preferredPath)
  let db := deleteChunks db driveId discardedPath
  if ¬ preferCanonical ∧ hasPreferred then
    (hasPreferred, { db with
      contentChunks := update (fun c => c.At driveId barePath)
        (fun c => { c with filePath := canonicalPath }) db.contentChunks })
  else (hasPreferred, db)

/-- `reconcilePathTable` on `files_fts_docs`: keep the document of one spelling. -/
def reconcilePathTable (db : SearchTables) (driveId barePath canonicalPath : Text)
    (preferCanonical : Bool) : Except SqlError (Bool × SearchTables) := do
  let preferredPath := if preferCanonical then canonicalPath else barePath
  let discardedPath := if preferCanonical then barePath else canonicalPath
  let hasPreferred := db.ftsDocs.any (fun d => d.At driveId preferredPath)
  let docs := db.ftsDocs.filter (fun d => ¬ d.At driveId discardedPath)
  if ¬ preferCanonical ∧ hasPreferred then
    let docs ← checked (.unique .filesFtsDocs) docKey
      (update (fun d => d.At driveId barePath) (fun d => { d with path := canonicalPath }) docs)
    return (hasPreferred, { db with ftsDocs := docs })
  else return (hasPreferred, { db with ftsDocs := docs })

/-- A full-text table as it was when the migration began: the row ids of a key. -/
structure VirtualFtsTable where
  rows : List FtsRow
  deriving DecidableEq, Repr

def VirtualFtsTable.rowIds (table : VirtualFtsTable) (k : Text) : List Nat :=
  (table.rows.filter (fun r => key r.driveId r.path = k)).map FtsRow.rowid

structure FtsTables where
  internal : Option VirtualFtsTable
  legacy : Option VirtualFtsTable
  deriving DecidableEq, Repr

/-- Keep the rows of one spelling in a full-text table. -/
def reconcileVirtualFtsRows (table : VirtualFtsTable) (rows : List FtsRow)
    (driveId barePath canonicalPath : Text) (preferCanonical : Bool) : Bool × List FtsRow :=
  let preferredPath := if preferCanonical then canonicalPath else barePath
  let discardedPath := if preferCanonical then barePath else canonicalPath
  let preferredRowIds := table.rowIds (key driveId preferredPath)
  let discardedRowIds := table.rowIds (key driveId discardedPath)
  let rows := rows.filter (fun r => r.rowid ∉ discardedRowIds)
  (preferredRowIds ≠ [],
    if preferCanonical then rows
    else update (fun r => r.rowid ∈ preferredRowIds)
      (fun r => { r with path := canonicalPath }) rows)

/-- `reconcileVirtualFtsRows` on a table that may be absent. -/
def reconcileVirtual (table : Option VirtualFtsTable) (rows : Option (List FtsRow))
    (driveId barePath canonicalPath : Text) (preferCanonical : Bool) :
    Bool × Option (List FtsRow) :=
  match table with
  | none => (false, rows)
  | some table =>
      let result := reconcileVirtualFtsRows table (rows.getD []) driveId barePath canonicalPath
        preferCanonical
      (result.1, rows.map (fun _ => result.2))

def reconcileFtsRows (fts : FtsTables) (db : SearchTables)
    (driveId barePath canonicalPath : Text) (preferCanonical : Bool) :
    Except SqlError (Bool × SearchTables) := do
  let (hasDoc, db) ← reconcilePathTable db driveId barePath canonicalPath preferCanonical
  let internal := reconcileVirtual fts.internal db.ftsInternal driveId barePath canonicalPath
    preferCanonical
  let legacy := reconcileVirtual fts.legacy db.ftsLegacy driveId barePath canonicalPath
    preferCanonical
  return (hasDoc || internal.1 || legacy.1,
    { db with ftsInternal := internal.2, ftsLegacy := legacy.2 })

/-- The rows of a full-text table without those of two keys. -/
def deleteVirtual (table : Option VirtualFtsTable) (rows : Option (List FtsRow))
    (driveId barePath canonicalPath : Text) : Option (List FtsRow) :=
  match table with
  | none => rows
  | some table =>
      let rowIds := table.rowIds (key driveId barePath) ++ table.rowIds (key driveId canonicalPath)
      rows.map (fun rows => rows.filter (fun r => r.rowid ∉ rowIds))

def deleteAllIndexRows (fts : FtsTables) (db : SearchTables)
    (driveId barePath canonicalPath : Text) : SearchTables :=
  let db := deleteChunks (deleteChunks db driveId barePath) driveId canonicalPath
  { db with
    ftsDocs := db.ftsDocs.filter
      (fun d => ¬ (d.driveId = driveId ∧ (d.path = barePath ∨ d.path = canonicalPath)))
    ftsInternal := deleteVirtual fts.internal db.ftsInternal driveId barePath canonicalPath
    ftsLegacy := deleteVirtual fts.legacy db.ftsLegacy driveId barePath canonicalPath }

/-! ### One path -/

/-- `UPDATE files SET path = ?`. -/
def renameFiles (driveId barePath canonicalPath : Text) (files : List IndexedFile) :
    Except SqlError (List IndexedFile) :=
  checked (.unique .files) fileKey
    (update (fun f => f.At driveId barePath)
      (fun f => { f with path := canonicalPath }) files)

/-- `UPDATE comments SET path = ?`. -/
def renameComments (driveId barePath canonicalPath : Text) (comments : List CommentRow) :
    List CommentRow :=
  update (fun c => c.driveId = driveId ∧ c.path = barePath)
    (fun c => { c with path := canonicalPath }) comments

/-- `UPDATE shares SET path = ?`. -/
def renameShares (driveId barePath canonicalPath : Text) (shares : List ShareRow) :
    List ShareRow :=
  update (fun s => s.driveId = driveId ∧ s.path = barePath)
    (fun s => { s with path := canonicalPath }) shares

/-- Rename a path of which at most one spelling has a history.  The number is that of the
comments it renames. -/
def renameBareOnlyPath (fts : FtsTables) (db : PathTables)
    (driveId barePath canonicalPath : Text) (preferCanonical : Bool) :
    Except SqlError (Nat × PathTables) := do
  let files ← renameFiles driveId barePath canonicalPath db.files
  let fileVersions ← checked (.unique .fileVersions) versionKey
    (update (fun r => r.driveId = driveId ∧ r.path = barePath)
      (fun r => { r with path := canonicalPath }) db.fileVersions)
  let commentsRemapped :=
    (db.comments.filter (fun c => c.driveId = driveId ∧ c.path = barePath)).length
  let search := { db.toSearchTables with files := files }
  let (_, search) := reconcileChunks search driveId barePath canonicalPath preferCanonical
  let (_, search) ← reconcileFtsRows fts search driveId barePath canonicalPath preferCanonical
  return (commentsRemapped, {
    toSearchTables := search
    fileVersions := fileVersions
    comments := renameComments driveId barePath canonicalPath db.comments
    shares := renameShares driveId barePath canonicalPath db.shares })

/-- The order of the merged history. -/
def Precedes (a b : FileVersionRow) : Prop :=
  a.createdAt < b.createdAt ∨ a.createdAt = b.createdAt ∧ a.id ≤ b.id

instance : DecidableRel Precedes :=
  fun _ _ => inferInstanceAs (Decidable (_ ∨ _))

/-- The row is of one of the two spellings of a path. -/
def OfEither (driveId barePath canonicalPath : Text) (r : FileVersionRow) : Prop :=
  r.driveId = driveId ∧ (r.path = barePath ∨ r.path = canonicalPath)

instance (driveId barePath canonicalPath : Text) (r : FileVersionRow) :
    Decidable (OfEither driveId barePath canonicalPath r) :=
  inferInstanceAs (Decidable (_ ∧ _))

/-- The versions of both spellings, in the order of the merged history. -/
def readVersions (db : PathTables) (driveId barePath canonicalPath : Text) :
    List FileVersionRow :=
  (db.fileVersions.filter (fun r => OfEither driveId barePath canonicalPath r)).insertionSort
    Precedes

def readFiles (db : PathTables) (driveId barePath canonicalPath : Text) : List IndexedFile :=
  db.files.filter
    (fun f => f.driveId = driveId ∧ (f.path = barePath ∨ f.path = canonicalPath))

/-- The first loop: every version goes to the canonical path, under a number above all
old ones. -/
def toTemporary (canonicalPath : Text) (base : Nat) (versions : List FileVersionRow) :
    List (RowUpdate FileVersionRow Nat) :=
  versions.zipIdx.map (fun (row, index) =>
    ⟨row.id, fun r => { r with path := canonicalPath, version := base + index + 1 }⟩)

/-- The second loop: every version gets its place in the merged history. -/
def toFinal (versions : List FileVersionRow) : List (RowUpdate FileVersionRow Nat) :=
  versions.zipIdx.map (fun (row, index) =>
    ⟨row.id, fun r => { r with version := index + 1 }⟩)

/-- The ids of the versions whose number changes. -/
def changedVersionIds (versions : List FileVersionRow) : List Nat :=
  (versions.zipIdx.filter (fun (row, index) => row.version ≠ index + 1)).map (fun e => e.1.id)

/-- The greatest number of a version, at least 0. -/
def maxOldVersion (versions : List FileVersionRow) : Nat :=
  versions.foldl (fun max row => Nat.max max row.version) 0

/-- Both loops over the versions. -/
def renumberVersions (canonicalPath : Text) (versions rows : List FileVersionRow) :
    Except SqlError (List FileVersionRow) := do
  let rows ← updateRows (.unique .fileVersions) FileVersionRow.id versionKey
    (toTemporary canonicalPath (maxOldVersion versions) versions) rows
  updateRows (.unique .fileVersions) FileVersionRow.id versionKey (toFinal versions) rows

/-- The row of `files` that was written last. -/
def latestFile (files : List IndexedFile) : Option IndexedFile :=
  files.foldl (fun latest row =>
    match latest with
    | none => some row
    | some l => if row.modifiedAt > l.modifiedAt then some row else some l) none

/-- The row of `files` the merged row takes its type and status from. -/
def sourceFile (versions : List FileVersionRow) (files : List IndexedFile) :
    Option IndexedFile :=
  match versions.getLast? with
  | some latestVersion =>
      (files.find? (fun row => row.path = latestVersion.path)).or (latestFile files)
  | none => latestFile files

/-- The least of the creation times, or the clock when there is none. -/
def mergedCreatedAt (now : Nat) (versions : List FileVersionRow) (files : List IndexedFile) :
    Nat :=
  (files.map (fun f => f.createdAt) ++ versions.map FileVersionRow.createdAt).min?.getD
    (now / 1000)

/-- Whether the merged file is deleted. -/
def mergedIsDeleted (versions : List FileVersionRow) (files : List IndexedFile) : Bool :=
  match versions.getLast? with
  | some latestVersion => latestVersion.operation = Operation.delete
  | none => ((sourceFile versions files).map (fun f => f.isDeleted)).getD false

/-- What the final `UPDATE files` makes of the canonical row. -/
def mergedFile (now : Nat) (versions : List FileVersionRow) (files : List IndexedFile)
    (embeddingStatus : Option EmbeddingStatus) (f : IndexedFile) : IndexedFile :=
  let latestVersion := versions.getLast?
  let source := sourceFile versions files
  let fileCreatedAt := mergedCreatedAt now versions files
  { f with
    size := ((latestVersion.bind FileVersionRow.size).or
      (source.map (fun s => s.size))).getD 0
    contentType := source.bind (fun s => s.contentType)
    author := ((latestVersion.map FileVersionRow.author).or
      (source.map (fun s => s.author))).getD "unknown".toList
    currentVersionId := match latestVersion with
      | some _ => some (toString versions.length).toList
      | none => source.bind (fun s => s.currentVersionId)
    createdAt := fileCreatedAt
    modifiedAt := ((latestVersion.map FileVersionRow.createdAt).or
      (source.map (fun s => s.modifiedAt))).getD fileCreatedAt
    isDeleted := mergedIsDeleted versions files
    embeddingStatus := embeddingStatus }

/-- One row of `files` remains for the two spellings. -/
def joinFiles (driveId barePath canonicalPath : Text) (files rows : List IndexedFile) :
    Except SqlError (List IndexedFile) :=
  if files.any (fun f => f.path = canonicalPath) then
    .ok (rows.filter (fun f => ¬ f.At driveId barePath))
  else renameFiles driveId barePath canonicalPath rows

/-- The status the merged file starts from. -/
def sourceStatus (versions : List FileVersionRow) (files : List IndexedFile) :
    Option EmbeddingStatus :=
  match sourceFile versions files with
  | some f => f.embeddingStatus
  | none => some .pending

/-- The last version, or else the source file, is under the canonical path. -/
def prefersCanonical (canonicalPath : Text) (versions : List FileVersionRow)
    (files : List IndexedFile) : Bool :=
  (versions.getLast?.map FileVersionRow.path).or
    ((sourceFile versions files).map (fun f => f.path)) = some canonicalPath

/-- The status of a merged file whose index rows were reconciled. -/
def mergedStatus (hasChunks hasFts : Bool) (embeddingStatus : Option EmbeddingStatus) :
    Option EmbeddingStatus :=
  if (¬ hasFts ∨ (¬ hasChunks ∧ embeddingStatus ≠ some .skipped)) ∧ embeddingStatus ≠ none then
    some .pending
  else embeddingStatus

/-- The search index after the merge, and the status of the merged file. -/
def mergeIndex (fts : FtsTables) (db : SearchTables) (versions : List FileVersionRow)
    (files : List IndexedFile) (driveId barePath canonicalPath : Text) :
    Except SqlError (Option EmbeddingStatus × SearchTables) :=
  let embeddingStatus := sourceStatus versions files
  if mergedIsDeleted versions files then
    .ok (embeddingStatus, deleteAllIndexRows fts db driveId barePath canonicalPath)
  else do
    let preferCanonical := prefersCanonical canonicalPath versions files
    let (hasChunks, db) := reconcileChunks db driveId barePath canonicalPath preferCanonical
    let (hasFts, db) ← reconcileFtsRows fts db driveId barePath canonicalPath preferCanonical
    return (mergedStatus hasChunks hasFts embeddingStatus, db)

/-- The comments that the merge counts. -/
def remappedComments (comments : List CommentRow) (changed : List Nat)
    (driveId barePath canonicalPath : Text) : List CommentRow :=
  comments.filter (fun c =>
    c.driveId = driveId ∧ (c.path = barePath ∨ c.path = canonicalPath) ∧
      (c.path ≠ canonicalPath ∨ c.fileVersionId.any (· ∈ changed)))

/-- Merge the two histories of a path.  The clock `now` is in milliseconds. -/
def mergeSplitPath (now : Nat) (fts : FtsTables) (db : PathTables)
    (driveId barePath canonicalPath : Text) (summary : PathNormalizationMigrationSummary) :
    Except SqlError (PathNormalizationMigrationSummary × PathTables) := do
  let versions := readVersions db driveId barePath canonicalPath
  let files := readFiles db driveId barePath canonicalPath
  let changed := changedVersionIds versions
  let fileVersions ← renumberVersions canonicalPath versions db.fileVersions
  let remapped := remappedComments db.comments changed driveId barePath canonicalPath
  let fileRows ← joinFiles driveId barePath canonicalPath files db.files
  let (embeddingStatus, search) ←
    mergeIndex fts { db.toSearchTables with files := fileRows } versions files driveId barePath
      canonicalPath
  return ({ summary with
      versionsRenumbered := summary.versionsRenumbered + changed.length
      commentsRemapped := summary.commentsRemapped + remapped.length }, {
    toSearchTables := { search with
      files := update (fun f => f.At driveId canonicalPath)
        (mergedFile now versions files embeddingStatus) search.files }
    fileVersions := fileVersions
    comments := renameComments driveId barePath canonicalPath db.comments
    shares := renameShares driveId barePath canonicalPath db.shares })

/-! ### The run -/

def canSafelyPrefixBarePath (path : Text) : Prop :=
  normalizePath path = '/' :: path ∧ ¬ ['/', '/'] <:+: path

instance (path : Text) : Decidable (canSafelyPrefixBarePath path) :=
  inferInstanceAs (Decidable (_ ∧ _))

/-- The body of the loop over the bare paths. -/
def normalizeBarePath (now : Nat) (fts : FtsTables)
    (s : PathNormalizationMigrationSummary × PathTables) (b : BarePath) :
    Except SqlError (PathNormalizationMigrationSummary × PathTables) :=
  let (summary, db) := s
  if ¬ canSafelyPrefixBarePath b.path then
    .ok ({ summary with skippedPaths := summary.skippedPaths + 1 }, db)
  else
    let canonicalPath := '/' :: b.path
    let hasBareHistory := hasFileHistory db b.driveId b.path
    let hasCanonicalHistory := hasFileHistory db b.driveId canonicalPath
    if hasBareHistory ∧ hasCanonicalHistory then
      mergeSplitPath now fts db b.driveId b.path canonicalPath
        { summary with mergedPaths := summary.mergedPaths + 1 }
    else do
      let (commentsRemapped, db) ← renameBareOnlyPath fts db b.driveId b.path canonicalPath
        (!hasBareHistory && hasCanonicalHistory)
      return ({ summary with
        commentsRemapped := summary.commentsRemapped + commentsRemapped
        renamedPaths := summary.renamedPaths + 1 }, db)

/-- The migration, as one transaction.  The full-text tables are read once, before the
loop. -/
def runPathNormalizationMigration (localeCompare : Text → Text → Int) (now : Nat)
    (db : PathTables) :
    Except SqlError (Option PathNormalizationMigrationSummary × PathTables) := do
  let barePaths := collectBarePaths localeCompare db
  if barePaths = [] then return (none, db)
  let fts : FtsTables := ⟨db.ftsInternal.map .mk, db.ftsLegacy.map .mk⟩
  let (summary, db) ← barePaths.foldlM (normalizeBarePath now fts) ({}, db)
  return (some summary, db)

end PathNormalization

end AgentFs

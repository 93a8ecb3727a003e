import AgentFs.Ops.Files
import AgentFs.Search.Tables

/-!
# The search index of a server

The world of the search system: the files and objects, the tables of the index, the status
columns of `files`, and the embedding jobs that have been queued.  The functions of
`ops/search-index.ts` and `search/fts.ts` that change the index run between two awaits.
-/

namespace AgentFs

open Async

/-- What a provider can embed. -/
structure EmbeddingProvider where
  name : Text
  /-- The types that `supportsMime` accepts. -/
  mimes : List Text
  /-- There is a method `embedParts`. -/
  embedsParts : Bool
  deriving DecidableEq, Repr

/-- The context of an operation, with its embedding provider. -/
structure SearchContext extends OpContext where
  embeddingProvider : Option EmbeddingProvider
  deriving DecidableEq, Repr

/-- A piece of text to embed. -/
structure Chunk where
  content : Text
  charOffset : Nat
  tokenCount : Nat
  deriving DecidableEq, Repr

/-- The parameters of `indexFileEmbeddings`.  `version` is `files.current_version_id` as the
caller read it, which may be NULL. -/
structure EmbeddingParams where
  path : Text
  driveId : Text
  content : Text
  version : Option Text
  pageStarts : Option (List Nat)
  refreshFts : Bool
  deriving DecidableEq, Repr

/-- A text embedding job. -/
structure EmbeddingJob where
  id : Nat
  params : EmbeddingParams
  deriving DecidableEq, Repr

/-- The index with the status columns of `files`, by drive and path.  A row that has not been
inserted has the defaults that the insert gives it. -/
structure SearchIndex extends IndexTables where
  textStatus : Text → Text → Option EmbeddingStatus
  imageStatus : Text → Text → Option ImageEmbeddingStatus

/-- What `meta` holds for the background jobs; `none` when the key is absent.  The list of
excluded drives is `some none` when its JSON text is malformed. -/
structure SearchMeta where
  ftsMigrationCursor : Option Nat
  embeddingFormat : Option Text
  embeddingMaxBytes : Option (Option Nat)
  embeddingExcludeDrives : Option (Option (List Text))
  embeddingFailedRetry : Option Text
  deriving DecidableEq, Repr

/-- The world of the search system.  `queued` are the text embedding jobs that wait for a
slot, `running` those that have one. -/
structure SearchWorld where
  world : World
  index : SearchIndex
  jobSeq : Nat
  queued : List EmbeddingJob
  running : List EmbeddingJob
  metaRows : SearchMeta

/-- A world without files, jobs or index rows. -/
def SearchWorld.empty : SearchWorld where
  world := .empty
  index := { IndexTables.empty with
    textStatus := fun _ _ => some .pending
    imageStatus := fun _ _ => none }
  jobSeq := 0
  queued := []
  running := []
  metaRows := ⟨none, none, none, none, none⟩

/-- What a segment of the search system takes from outside, beyond the input of a file
operation. -/
structure SearchInput extends Input where
  /-- The answer of `canRenderPdfPages`. -/
  pdfPageImages : Bool
  /-- The text and page starts of a PDF. -/
  pdf : Text × List Nat
  /-- The chunks of a text, or `none` when chunking throws. -/
  chunks : Option (List Chunk)
  /-- The unit vectors of the provider, or `none` when it throws or returns a bad one. -/
  embeddings : Option (List Bytes)
  /-- The pages of the rendered image file with their vectors, or `none` when reading,
  rendering or embedding throws. -/
  parts : Option (List (Option Nat × Bytes))
  /-- The provider could not be initialized. -/
  initializationError : Bool
  /-- Which insert of a transaction throws. -/
  insertFails : Nat → Bool
  /-- `getEmbeddingExcludeDrives()` and `getEmbeddingMaxBytes()`. -/
  excludeDrives : List Text
  maxBytes : Option Nat

/-! ### The status columns -/

/-- The file's `current_version_id`, or `none` when the file is gone or deleted. -/
def readCurrentVersion (db : Db) (driveId path : Text) : Option (Option Text) :=
  match (db.filesOf driveId path).head? with
  | none => none
  | some file => if file.isDeleted then none else some file.currentVersionId

/-- A table of values by drive and path, with one value changed. -/
def setAt {α : Type} (f : Text → Text → α) (driveId path : Text) (a : α) : Text → Text → α :=
  fun d p => if d = driveId ∧ p = path then a else f d p

/-- `UPDATE files SET embedding_status = ?`. -/
def setTextStatus (driveId path : Text) (status : Option EmbeddingStatus) (w : SearchWorld) :
    SearchWorld :=
  if w.world.db.filesOf driveId path = [] then w
  else { w with index := { w.index with
    textStatus := setAt w.index.textStatus driveId path status } }

/-- `UPDATE files SET image_embedding_status = ?`. -/
def setImageStatus (driveId path : Text) (status : Option ImageEmbeddingStatus)
    (w : SearchWorld) : SearchWorld :=
  if w.world.db.filesOf driveId path = [] then w
  else { w with index := { w.index with
    imageStatus := setAt w.index.imageStatus driveId path status } }

@[simp]
theorem setTextStatus_world (driveId path : Text) (status : Option EmbeddingStatus)
    (w : SearchWorld) :
  (setTextStatus driveId path status w).world = w.world
  := by
  unfold setTextStatus
  split <;> rfl

@[simp]
theorem setImageStatus_world (driveId path : Text) (status : Option ImageEmbeddingStatus)
    (w : SearchWorld) :
  (setImageStatus driveId path status w).world = w.world
  := by
  unfold setImageStatus
  split <;> rfl

/-! ### The full-text index -/

/-- Delete the document of a path. -/
def removeFromIndex (driveId path : Text) (w : SearchWorld) : SearchWorld :=
  { w with index := { w.index with
    ftsDocs := w.index.ftsDocs.filter (fun d => ¬ d.At driveId path) } }

/-- Insert a document. -/
def insertDoc (driveId path content : Text) (w : SearchWorld) : SearchWorld :=
  { w with index := { w.index with
    ftsDocs := w.index.ftsDocs ++ [⟨w.index.ftsDocSeq + 1, driveId, path, content⟩]
    ftsDocSeq := w.index.ftsDocSeq + 1 } }

/-- Replace the document of a path. -/
def indexFile (driveId path content : Text) (w : SearchWorld) : SearchWorld :=
  insertDoc driveId path content (removeFromIndex driveId path w)

/-- The text of the document of a path. -/
def indexedContent (driveId path : Text) (w : SearchWorld) : Option Text :=
  (w.index.ftsDocs.find? (fun d => d.At driveId path)).map FtsDocRow.content

/-! ### Chunks -/

/-- Which chunks of a file to delete. -/
inductive ChunkDeleteScope where
  | text
  | image
  | all
  deriving DecidableEq, Repr

/-- The chunks of the scope. -/
def ChunkDeleteScope.Covers : ChunkDeleteScope → ChunkKind → Prop
  | .all, _ => True
  | .text, k => k = .text
  | .image, k => k = .image

instance : (scope : ChunkDeleteScope) → (k : ChunkKind) → Decidable (scope.Covers k)
  | .all, _ => isTrue trivial
  | .text, k => inferInstanceAs (Decidable (k = .text))
  | .image, k => inferInstanceAs (Decidable (k = .image))

/-- Delete chunks of a file, and their vectors. -/
def deleteChunks (driveId path : Text) (kind : ChunkDeleteScope) (w : SearchWorld) :
    SearchWorld :=
  { w with index := { w.index with
    toIndexTables := w.index.toIndexTables.deleteChunksWhere
      (fun c => c.At driveId path ∧ kind.Covers c.kind) } }

/-- Drop the status columns of the scope. -/
def clearStatuses (driveId path : Text) (kind : ChunkDeleteScope) (w : SearchWorld) :
    SearchWorld :=
  match kind with
  | .text => setTextStatus driveId path none w
  | .image => setImageStatus driveId path none w
  | .all => setImageStatus driveId path none (setTextStatus driveId path none w)

def clearSearchData (driveId path : Text) (kind : ChunkDeleteScope) (w : SearchWorld) :
    SearchWorld :=
  let w := if kind ≠ .image then removeFromIndex driveId path w else w
  clearStatuses driveId path kind (deleteChunks driveId path kind w)

@[simp]
theorem clearStatuses_world (driveId path : Text) (kind : ChunkDeleteScope) (w : SearchWorld) :
  (clearStatuses driveId path kind w).world = w.world
  := by
  cases kind <;> simp [clearStatuses]

@[simp]
theorem clearSearchData_world (driveId path : Text) (kind : ChunkDeleteScope)
    (w : SearchWorld) :
  (clearSearchData driveId path kind w).world = w.world
  := by
  unfold clearSearchData
  rw [clearStatuses_world]
  dsimp only [deleteChunks]
  split <;> rfl

/-- `provider?.supportsMime?.(mime)`. -/
def supportsMime (provider : Option EmbeddingProvider) (mime : Text) : Bool :=
  match provider with
  | none => false
  | some p => mime ∈ p.mimes

def imageEligible (provider : Option EmbeddingProvider) (mime : Text) (pdfPageImages : Bool)
    (driveId : Text) (excludeDrives : List Text) : Bool :=
  if driveId ∈ excludeDrives then false
  else if mime = "application/pdf".toList then pdfPageImages
  else supportsMime provider mime

/-! ### Indexing a file -/

/-- Mark the file pending and queue a job for its current version. -/
def scheduleEmbedding (provider : Option EmbeddingProvider) (driveId path content : Text)
    (pageStarts : Option (List Nat)) (w : SearchWorld) : SearchWorld :=
  match provider with
  | none => w
  | some _ =>
      let w := setTextStatus driveId path (some .pending) w
      match readCurrentVersion w.world.db driveId path with
      | none => w
      | some version =>
          { w with
            jobSeq := w.jobSeq + 1
            queued := w.queued ++
              [⟨w.jobSeq + 1, ⟨path, driveId, content, version, pageStarts, false⟩⟩] }

/-- What `indexTextForSearch` does once it has found the version it began with. -/
def indexText (ctx : SearchContext) (path content : Text) (pageStarts : Option (List Nat))
    (pdfPageImages : Bool) (excludeDrives : List Text) (w : SearchWorld) : SearchWorld :=
  let file := (w.world.db.filesOf ctx.driveId path).head?
  let mime := (file.bind (fun f => f.contentType)).getD (detectMimeType path)
  let w := if imageEligible ctx.embeddingProvider mime pdfPageImages ctx.driveId excludeDrives
    then w else clearSearchData ctx.driveId path .image w
  scheduleEmbedding ctx.embeddingProvider ctx.driveId path content pageStarts
    (indexFile ctx.driveId path content w)

/-- What `indexBytesForSearch` does with the image data, once it has found the version it
began with. -/
def indexImage (ctx : SearchContext) (path contentType : Text) (pdfPageImages : Bool)
    (excludeDrives : List Text) (w : SearchWorld) : SearchWorld :=
  let w := clearSearchData ctx.driveId path .image w
  if imageEligible ctx.embeddingProvider contentType pdfPageImages ctx.driveId excludeDrives then
    setImageStatus ctx.driveId path (some .pending) w
  else w

@[simp]
theorem indexImage_world (ctx : SearchContext) (path contentType : Text) (pdfPageImages : Bool)
    (excludeDrives : List Text) (w : SearchWorld) :
  (indexImage ctx path contentType pdfPageImages excludeDrives w).world = w.world
  := by
  unfold indexImage
  dsimp only
  split <;> simp

/-- `extractIndexableText`: the text of a file and, for a PDF, its page starts. -/
def extractIndexableText (bytes : Bytes) (contentType : Text) (pdf : Text × List Nat) :
    Option (Text × Option (List Nat)) :=
  if (trim ((contentType.splitOnP (· = ';')).head?.getD [])).map Char.toLower
      = "application/pdf".toList then
    some (pdf.1, some pdf.2)
  else (decodeIndexableText bytes contentType).map (fun text => (text, none))

end AgentFs

import AgentFs.Lib.Update
import AgentFs.Search.Index

/-!
# File operations that keep the index

`write`, `edit`, `append`, `revert`, `cp`, `mv` and `rm` with what they do to the search index
once the version is recorded.  Up to that point they are the programs of the file operations;
the stars that follow the index are not modelled.
-/

namespace AgentFs

open Async

/-- How a text embedding job ends or goes on. -/
inductive TextJobStep where
  | waiting
  | superseded
  | replaced (status : Option EmbeddingStatus)
  | failed
  deriving DecidableEq, Repr

/-- How the image job deals with a file. -/
inductive ImageJobStep where
  | waiting
  | superseded
  | ineligible
  | replaced
  | failed
  /-- The provider could not be initialized: the run stops. -/
  | stopped
  deriving DecidableEq, Repr

/-- A file that the image job has selected. -/
structure ImageRow where
  driveId : Text
  path : Text
  version : Option Text
  mime : Option Text
  deriving DecidableEq, Repr

/-- What the last segment of a move does to the index. -/
inductive MovedIndex where
  /-- The target no longer has the version that the move had recorded. -/
  | superseded (version : Option (Option Text))
  /-- The target gets the document `content`, if any, and the status of the source, if its
  chunks are moved. -/
  | moved (content : Option Text) (status : Option EmbeddingStatus)
  deriving DecidableEq, Repr

/-- What a segment of the search system did. -/
inductive SearchEvent where
  | silent
  /-- A segment of a file operation. -/
  | file (ev : Event)
  | readVersion (driveId path : Text) (version : Option (Option Text))
  /-- An indexing step that began with `version` found another version. -/
  | superseded (driveId path : Text) (version : Option (Option Text))
  | indexedText (driveId path content : Text)
  /-- The image data of a file is dealt with, its text is not; `version` is read again. -/
  | indexedImage (driveId path : Text) (version : Option (Option Text))
  /-- The bytes of a file hold no text. -/
  | clearedText (driveId path : Text)
  /-- The data of a removed file is gone. -/
  | removed (driveId path : Text)
  /-- The document of the source of a move is gone. -/
  | removedSource (driveId path : Text)
  | moved (driveId source target : Text) (what : MovedIndex)
  | dequeued (job : Option EmbeddingJob)
  | textJob (params : EmbeddingParams) (step : TextJobStep)
  | imageJob (row : ImageRow) (step : ImageJobStep)
  /-- A transaction or query of the embedding migration. -/
  | embeddingMigration
  /-- A slice of legacy rows is committed. -/
  | copiedBatch (rows : List FtsRow)
  | droppedLegacy
  deriving DecidableEq, Repr

/-- A program of the search system. -/
abbrev SearchOp (α : Type) := Fallible SearchWorld SearchInput SearchEvent OpError α

/-- A segment of the search system. -/
abbrev searchSegment {α : Type}
    (f : SearchWorld → SearchInput → Except OpError α × SearchEvent × SearchWorld) : SearchOp α :=
  Fallible.atomic f

/-- A part of a file operation as a program of the search system. -/
def searchFile {α : Type} (op : Op α) : SearchOp α :=
  ExceptT.mk (op.run.embed SearchWorld.world (fun w _ world => { w with world := world })
    SearchInput.toInput (fun _ ev => .file ev))

/-! ### Indexing -/

/-- Read the current version of a path. -/
def readVersion (ctx : SearchContext) (path : Text) : SearchOp (Option (Option Text)) :=
  searchSegment fun w _ =>
    let version := readCurrentVersion w.world.db ctx.driveId path
    (.ok version, .readVersion ctx.driveId path version, w)

/-- Wait for `canRenderPdfPages`. -/
def canRenderPdfPages : SearchOp Bool :=
  searchSegment fun w x => (.ok x.pdfPageImages, .silent, w)

/-- The rest of `indexTextForSearch`, once it knows whether PDF pages can be rendered. -/
def indexTextSince (ctx : SearchContext) (path content : Text) (pageStarts : Option (List Nat))
    (version : Option (Option Text)) : SearchOp Unit :=
  searchSegment fun w x =>
    if readCurrentVersion w.world.db ctx.driveId path ≠ version then
      (.ok (), .superseded ctx.driveId path version, w)
    else
      (.ok (), .indexedText ctx.driveId path content,
        indexText ctx path content pageStarts x.pdfPageImages x.excludeDrives w)

def indexTextForSearch (ctx : SearchContext) (path content : Text)
    (pageStarts : Option (List Nat)) : SearchOp Unit := do
  let version ← readVersion ctx path
  indexTextSince ctx path content pageStarts version

/-- What the middle segment of `indexBytesForSearch` goes on with: nothing more, or the text
of the file and the version it is indexed for. -/
abbrev ExtractedText := Option (Text × Option (List Nat) × Option (Option Text))

/-- The middle segment of `indexBytesForSearch`: the text of the bytes is there. -/
def indexExtracted (ctx : SearchContext) (path contentType : Text) (bytes : Bytes)
    (version : Option (Option Text)) (pdfPageImages : Bool) : SearchOp ExtractedText :=
  searchSegment fun w x =>
    if readCurrentVersion w.world.db ctx.driveId path ≠ version then
      (.ok none, .superseded ctx.driveId path version, w)
    else
      let w := indexImage ctx path contentType pdfPageImages x.excludeDrives w
      match extractIndexableText bytes contentType x.pdf with
      | none =>
          (.ok none, .clearedText ctx.driveId path, clearSearchData ctx.driveId path .text w)
      | some (text, pageStarts) =>
          let version := readCurrentVersion w.world.db ctx.driveId path
          (.ok (some (text, pageStarts, version)), .indexedImage ctx.driveId path version, w)

def indexBytesForSearch (ctx : SearchContext) (path contentType : Text) (bytes : Bytes) :
    SearchOp Unit := do
  let version ← readVersion ctx path
  let pdfPageImages ← canRenderPdfPages
  let extracted ← indexExtracted ctx path contentType bytes version pdfPageImages
  match extracted with
  | none => pure ()
  | some (text, pageStarts, version) => indexTextSince ctx path text pageStarts version

/-! ### The operations -/

section

variable (sha256 : Bytes → Text)

/-- What a write gives to the index: the text of `write`, or the bytes of `writeRaw`. -/
inductive Indexable where
  | text (content : Text)
  | bytes
  deriving DecidableEq, Repr

/-- `writeInternal`, past its size check, with the index. -/
def searchWriteInternal (ctx : SearchContext) (params : WriteRawParams) (opts : WriteOpts)
    (indexable : Indexable) : SearchOp Response :=
  let path := normalizePath params.path
  let size := params.bytes.length
  if size > opts.maxSize then
    throw (.validation
      { message := "File size " ++ renderMb size ++ "MB exceeds the " ++ opts.limitMb ++
          "MB limit"
        field := some "content"
        suggestion := some "Split large files into smaller chunks" })
  else do
    let contentHash := sha256 params.bytes
    let deduped ← searchFile (dedupVersion ctx.toOpContext path contentHash params.expectedVersion)
    match deduped with
    | some current => pure (.written current path size contentHash true)
    | none => do
        let version ← searchFile (storeVersion sha256 ctx.toOpContext path .write params.bytes
          params.message none)
        match indexable with
        | .text content => indexTextForSearch ctx path content none
        | .bytes => indexBytesForSearch ctx path (detectMimeType path) params.bytes
        pure (.written version path size contentHash false)

def searchWrite (ctx : SearchContext) (params : WriteParams) : SearchOp Response :=
  searchWriteInternal sha256 ctx
    { path := params.path
      bytes := textEncode params.content
      message := params.message
      expectedVersion := params.expectedVersion }
    maxFileSize (.text params.content)

def searchWriteRaw (limit : WriteOpts) (ctx : SearchContext) (params : WriteRawParams) :
    SearchOp Response :=
  searchWriteInternal sha256 ctx params limit .bytes

def searchEdit (ctx : SearchContext) (params : EditParams) : SearchOp Response := do
  let path := normalizePath params.path
  searchFile (checkExpectedVersion ctx.toOpContext path params.expectedVersion)
  let object ← searchFile
    ((getObject ctx.backend (ctx.key path)).mapError (orNotFound path))
  let content := textDecode object.bytes
  let count := occurrences content params.oldString
  if count = 0 then
    throw (.editConflict
      { message := "old_string not found in " ++ String.ofList path
        path := some path
        suggestion := some "Verify the exact text you want to replace" })
  else if count > 1 then
    throw (.editConflict
      { message := "old_string found " ++ toString count ++ " times in " ++
          String.ofList path ++ ", expected exactly 1"
        path := some path
        suggestion := some "Provide more surrounding context to make the match unique" })
  else do
    let newContent := replaceFirst content params.oldString params.newString
    let version ← searchFile (storeVersion sha256 ctx.toOpContext path .edit
      (textEncode newContent) params.message
      (some (editDiffSummary params.oldString params.newString)))
    indexTextForSearch ctx path newContent none
    pure (.edited version path 1)

def searchAppend (ctx : SearchContext) (params : AppendParams) : SearchOp Response := do
  let path := normalizePath params.path
  searchFile (checkExpectedVersion ctx.toOpContext path params.expectedVersion)
  let object ← searchFile
    ((getObject ctx.backend (ctx.key path)).mapError (orNotFound path))
  let newContent := textDecode object.bytes ++ params.content
  let version ← searchFile (storeVersion sha256 ctx.toOpContext path .append
    (textEncode newContent) params.message none)
  indexTextForSearch ctx path newContent none
  pure (.appended version (textEncode newContent).length)

def searchRevert (ctx : SearchContext) (params : RevertParams) : SearchOp Response :=
  let path := normalizePath params.path
  if ctx.backend.versioning = false then throw (.unsupportedOperation "revert")
  else do
    searchFile (checkExpectedVersion ctx.toOpContext path params.expectedVersion)
    let targetVersion ← searchFile (findVersion ctx.toOpContext path params.version)
    if targetVersion.s3VersionId = [] then
      throw (.versioningRequired
        { message := "S3 versioning required for revert"
          suggestion := some "Enable S3 versioning on the bucket" })
    else do
      let oldContent ← searchFile
        (getObjectVersion ctx.backend (ctx.key path) targetVersion.s3VersionId)
      let version ← searchFile (storeVersion sha256 ctx.toOpContext path .revert oldContent.bytes
        (some ("Reverted to version ".toList ++ (toString params.version).toList)) none)
      indexBytesForSearch ctx path (detectMimeType path) oldContent.bytes
      pure (.reverted version params.version)

/-- The parameters of the version that a copy or move records for its target. -/
def copiedParams (target message : Text) (copyResult : PutObjectResult) (head obj : Obj) :
    VersionParams where
  path := target
  s3VersionId := copyResult.versionId.getD []
  operation := .write
  message := some message
  size := some head.bytes.length
  etag := copyResult.etag
  contentType := some ((head.contentType.or obj.contentType).getD (detectMimeType target))
  contentHash := some (sha256 obj.bytes)

def searchCp (ctx : SearchContext) (params : CpParams) : SearchOp Response :=
  let source := normalizePath params.fromPath
  let target := normalizePath params.toPath
  if source = target then throw samePathError
  else do
    searchFile (checkExpectedVersion ctx.toOpContext target params.expectedVersion)
    let copyResult ← searchFile (copyObject sha256 ctx.backend (ctx.key source) (ctx.key target))
    let head ← searchFile (headObject ctx.backend (ctx.key target))
    let obj ← searchFile (getObject ctx.backend (ctx.key target))
    let contentType := (head.contentType.or obj.contentType).getD (detectMimeType target)
    let version ← searchFile (createVersion ctx.toOpContext
      (copiedParams sha256 target ("Copied from ".toList ++ source) copyResult head obj))
    indexBytesForSearch ctx target contentType obj.bytes
    pure (.copied source target version)

/-- What a move reads of its source before it records the new version. -/
structure MoveSource where
  preserveImages : Bool
  /-- The status columns of the source, when it has a row. -/
  sourceFile : Option (Option ImageEmbeddingStatus × Option EmbeddingStatus)
  pdfText : Option Text
  deriving DecidableEq, Repr

/-- Read the status columns and, for a PDF, the indexed text of the source. -/
def readMoveSource (ctx : SearchContext) (source contentType : Text) (pdfPageImages : Bool) :
    SearchOp MoveSource :=
  searchSegment fun w x =>
    (.ok {
      preserveImages := imageEligible ctx.embeddingProvider contentType pdfPageImages ctx.driveId
        x.excludeDrives
      sourceFile := (w.world.db.filesOf ctx.driveId source).head?.map (fun _ =>
        (w.index.imageStatus ctx.driveId source, w.index.textStatus ctx.driveId source))
      pdfText := if contentType = "application/pdf".toList then
        indexedContent ctx.driveId source w else none },
      .silent, w)

/-- The document of the source goes. -/
def removeMoveSource (ctx : SearchContext) (source : Text) : SearchOp Unit :=
  searchSegment fun w _ =>
    (.ok (), .removedSource ctx.driveId source, removeFromIndex ctx.driveId source w)

/-- Rename the chunks of a path. -/
def moveChunks (driveId source target : Text) (w : SearchWorld) : SearchWorld :=
  { w with index := { w.index with
    contentChunks := Tabular.update (fun c => c.At driveId source)
      (fun c => { c with filePath := target }) w.index.contentChunks } }

/-- What a move does to the index when no newer version owns the target.  `moves` says
whether the chunks and the status of the source move with it. -/
def moveIndex (driveId source target : Text) (src : MoveSource) (content : Option Text)
    (moves : Bool) (status : Option EmbeddingStatus) (w : SearchWorld) : SearchWorld :=
  let w := clearSearchData driveId target .all w
  let w := if src.preserveImages then w else clearSearchData driveId source .image w
  let w := match content with
    | some content => indexFile driveId target content w
    | none => w
  let w := if moves then moveChunks driveId source target w
    else clearSearchData driveId source .text w
  let w := setImageStatus driveId target
    (if src.preserveImages then src.sourceFile.bind Prod.fst else none) w
  setTextStatus driveId target status w

/-- The last segment of a move.  The code reaches it without an await when it keeps the text
of the source; here other requests may run before it in any case. -/
def finishMove (ctx : SearchContext) (source target contentType : Text) (bytes : Bytes)
    (src : MoveSource) (targetVersion : Option (Option Text)) : SearchOp Unit :=
  searchSegment fun w x =>
    let preserveText := contentType = "application/pdf".toList ∨ src.preserveImages
    let extracted := if preserveText then none
      else extractIndexableText bytes contentType x.pdf
    if readCurrentVersion w.world.db ctx.driveId target = targetVersion then
      let content := if preserveText then src.pdfText else extracted.map Prod.fst
      let moves : Bool := preserveText ∨ extracted.isSome
      let status := if moves then src.sourceFile.bind Prod.snd else none
      (.ok (), .moved ctx.driveId source target (.moved content status),
        moveIndex ctx.driveId source target src content moves status w)
    else
      (.ok (), .moved ctx.driveId source target (.superseded targetVersion),
        clearSearchData ctx.driveId source .all w)

def searchMv (ctx : SearchContext) (params : MvParams) : SearchOp Response :=
  let source := normalizePath params.fromPath
  let target := normalizePath params.toPath
  if source = target then throw samePathError
  else do
    let pdfPageImages ← canRenderPdfPages
    searchFile (checkExpectedVersion ctx.toOpContext source params.expectedVersion)
    let copyResult ← searchFile (copyObject sha256 ctx.backend (ctx.key source) (ctx.key target))
    let head ← searchFile (headObject ctx.backend (ctx.key target))
    let obj ← searchFile (getObject ctx.backend (ctx.key target))
    let contentType := (head.contentType.or obj.contentType).getD (detectMimeType target)
    let src ← readMoveSource ctx source contentType pdfPageImages
    let version ← searchFile (createVersion ctx.toOpContext
      (copiedParams sha256 target (params.message.getD ("Moved from ".toList ++ source))
        copyResult head obj))
    let targetVersion ← readVersion ctx target
    searchFile (deleteVersion ctx.toOpContext source (some ("Moved to ".toList ++ target)))
    removeMoveSource ctx source
    finishMove ctx source target contentType obj.bytes src targetVersion
    pure (.moved source target version)

end

/-- The data of a removed file goes. -/
def removeIndex (ctx : SearchContext) (path : Text) : SearchOp Unit :=
  searchSegment fun w _ =>
    (.ok (), .removed ctx.driveId path, clearSearchData ctx.driveId path .all w)

/-- `rm` with the index.  The code clears the index and the comments without an await; here
other requests may run in between. -/
def searchRm (ctx : SearchContext) (params : RmParams) : SearchOp Response := do
  let path := normalizePath params.path
  searchFile (checkExpectedVersion ctx.toOpContext path params.expectedVersion)
  searchFile (deleteVersion ctx.toOpContext path none)
  removeIndex ctx path
  searchFile (softDeleteComments ctx.toOpContext path)
  pure (.removed path)

end AgentFs

import AgentFs.Search.Images

/-!
# The embedding migration

`prepareEmbeddingMigration` resets the status of the files whose vectors are out of date, and
`runPendingEmbeddings` embeds every pending file again.  Each transaction of the former may
throw; what is committed before it stays.
-/

namespace AgentFs

open Async

/-- `FAILED_RETRY`, as it stands in the retry key. -/
def failedRetry : Text := "#1".toList

/-- `Number.MAX_SAFE_INTEGER`. -/
def maxSafeInteger : Nat := 9007199254740991

/-! ### The statements of the preparation -/

/-- Mark the live files with `p` pending. -/
def markPending (p : FileRow → Option EmbeddingStatus → Prop) [∀ f s, Decidable (p f s)]
    (w : SearchWorld) : SearchWorld :=
  { w with index := { w.index with
    textStatus := fun driveId path =>
      if ∃ f ∈ w.world.db.filesOf driveId path,
          f.isDeleted = false ∧ p f (w.index.textStatus driveId path) then some .pending
      else w.index.textStatus driveId path } }

/-- Drop the image status of the files of the drives with `q`. -/
def dropImageStatuses (q : Text → Prop) [DecidablePred q] (w : SearchWorld) : SearchWorld :=
  { w with index := { w.index with
    imageStatus := fun driveId path =>
      if q driveId ∧ w.world.db.filesOf driveId path ≠ [] then none
      else w.index.imageStatus driveId path } }

/-- Delete the image chunks of the drives with `q`, and their vectors. -/
def dropImages (q : Text → Prop) [DecidablePred q] (w : SearchWorld) : SearchWorld :=
  { w with index := { w.index with
    toIndexTables := w.index.toIndexTables.deleteChunksWhere
      (fun c => c.kind = .image ∧ q c.driveId) } }

/-- The transaction for a new provider or a new format of the vectors. -/
def resetFormat (format : Text) (w : SearchWorld) : SearchWorld :=
  let w := markPending (fun _ s => s = some .indexed ∨ s = some .skipped) w
  let w := dropImageStatuses (fun _ => True) (dropImages (fun _ => True) w)
  { w with metaRows := { w.metaRows with embeddingFormat := some format } }

/-- The size in bytes of the indexed text of a file, or of the file when it has no document
and is no PDF. -/
def indexedBytes (w : SearchWorld) (f : FileRow) : Nat :=
  match indexedContent f.driveId f.path w with
  | some content => (textEncode content).length
  | none => if f.contentType = some "application/pdf".toList then 0 else f.size

/-- The files to embed again after a change of the size limit. -/
def resizes (maxBytes : Option Nat) (excludeDrives : List Text) (w : SearchWorld) (f : FileRow)
    (status : Option EmbeddingStatus) : Prop :=
  f.driveId ∉ excludeDrives ∧
    (status = some .skipped ∨
      status = some .indexed ∧ indexedBytes w f > maxBytes.getD maxSafeInteger ∨
      status = none ∧ maxBytes.any (fun limit =>
        (indexedContent f.driveId f.path w).any (fun content =>
          (textEncode content).length > limit)))

instance (maxBytes : Option Nat) (excludeDrives : List Text) (w : SearchWorld) (f : FileRow)
    (status : Option EmbeddingStatus) :
    Decidable (resizes maxBytes excludeDrives w f status) :=
  inferInstanceAs (Decidable (_ ∧ _))

/-- The transaction for new settings. -/
def applySettings (maxBytes : Option Nat) (excludeDrives : List Text) (w : SearchWorld) :
    SearchWorld :=
  let previousBytes := w.metaRows.embeddingMaxBytes.getD none
  let previous := w.metaRows.embeddingExcludeDrives.getD (some [])
  let previousDrives := previous.getD []
  let added := excludeDrives.filter (fun id => id ∉ previousDrives)
  let removed := previousDrives.filter (fun id => id ∉ excludeDrives)
  let w := if previousBytes ≠ maxBytes then markPending (resizes maxBytes excludeDrives w) w else w
  let w := if previous ≠ some excludeDrives then
      let w := markPending (fun f s => f.driveId ∈ added ∧
        (s = some .indexed ∨ s = some .pending ∨ s = some .failed)) w
      let w := markPending (fun f s => f.driveId ∈ removed ∧ s = some .skipped) w
      dropImageStatuses (fun id => id ∈ added) (dropImages (fun id => id ∈ added) w)
    else w
  { w with metaRows := { w.metaRows with
    embeddingMaxBytes := some maxBytes
    embeddingExcludeDrives := some (some excludeDrives) } }

/-- The transaction that retries failed files, once for each format. -/
def retryFailed (format : Text) (w : SearchWorld) : SearchWorld :=
  let retry := format ++ failedRetry
  if w.metaRows.embeddingFailedRetry = some retry then w
  else
    let w := markPending (fun _ s => s = some .failed) w
    { w with metaRows := { w.metaRows with embeddingFailedRetry := some retry } }

/-- Mark the PDFs without a status pending. -/
def backfillPdfs (w : SearchWorld) : SearchWorld :=
  markPending (fun f s => s = none ∧ f.contentType = some "application/pdf".toList) w

/-- Whether there is a file to embed. -/
def hasPending (w : SearchWorld) : Bool :=
  w.world.db.files.any (fun f =>
    f.isDeleted = false ∧ w.index.textStatus f.driveId f.path = some .pending)

/-! ### The preparation -/

/-- A transaction of the preparation, which throws without effect or commits. -/
def migrationTx (f : SearchInput → SearchWorld → SearchWorld) : SearchOp Unit :=
  searchSegment fun w x =>
    if x.insertFails 0 then (.error (.sql .other), .embeddingMigration, w)
    else (.ok (), .embeddingMigration, f x w)

/-- The rest of the preparation, once the provider is warm. -/
def prepareEmbeddingMigration (provider : EmbeddingProvider) : SearchOp Bool := do
  let format := embeddingFormat provider
  migrationTx (fun _ w =>
    if w.metaRows.embeddingFormat = some format then w else resetFormat format w)
  migrationTx (fun x => applySettings x.maxBytes x.excludeDrives)
  migrationTx (fun _ => retryFailed format)
  migrationTx (fun _ => backfillPdfs)
  searchSegment fun w _ => (.ok (hasPending w), .silent, w)

/-- A provider that cannot embed a query changes nothing. -/
def prepareEmbeddingMigrationWithWarmup (provider : EmbeddingProvider) : SearchOp Bool := do
  let warm ← searchSegment fun w x =>
    (.ok (decide (w.metaRows.embeddingFormat = some (embeddingFormat provider) ∨
      x.initializationError = false)), .silent, w)
  if warm then prepareEmbeddingMigration provider else pure false

/-! ### The run -/

/-- The options of the migration. -/
structure EmbeddingMigrationOpts where
  provider : EmbeddingProvider
  backend : Backend
  /-- The organization of each drive. -/
  drives : Text → Option Text
  batchSize : Nat

/-- A file that the migration has selected. -/
structure PendingRow where
  orgId : Text
  driveId : Text
  path : Text
  version : Option Text
  deriving DecidableEq, Repr

/-- The next batch of the migration. -/
def pendingRows (opts : EmbeddingMigrationOpts) (cursor : Text × Text) (w : SearchWorld) :
    List PendingRow :=
  (selectFiles opts.drives
    (fun f => w.index.textStatus f.driveId f.path = some .pending)
    cursor opts.batchSize w.world.db).map
    (fun f => ⟨(opts.drives f.driveId).getD [], f.driveId, f.path, f.currentVersionId⟩)

/-- The job for a selected file. -/
def PendingRow.params (row : PendingRow) (content : Text) (pageStarts : Option (List Nat)) :
    EmbeddingParams where
  path := row.path
  driveId := row.driveId
  content := content
  version := row.version
  pageStarts := pageStarts
  refreshFts := pageStarts.isSome

/-- Mark a file failed while it is pending and still holds the version that was selected. -/
def markFailed (row : PendingRow) : SearchOp Unit :=
  searchSegment fun w _ =>
    (.ok (), .embeddingMigration,
      if w.index.textStatus row.driveId row.path = some .pending ∧
          ∃ f ∈ w.world.db.filesOf row.driveId row.path, f.currentVersionId = row.version then
        setTextStatus row.driveId row.path (some .failed) w
      else w)

/-- Drop the chunks of a file without text. -/
def clearPending (row : PendingRow) : SearchOp Unit :=
  searchSegment fun w _ =>
    let r := clearEmbeddings row.driveId row.path row.version .text w
    (.ok (), .textJob (row.params [] none) (if r.1 then .replaced none else .superseded), r.2)

section

variable (stripBase64 : Text → Text)

/-- Embed a selected file. -/
def embedPending (opts : EmbeddingMigrationOpts) (row : PendingRow) : SearchOp Unit := do
  let excluded ← searchSegment fun w x =>
    (.ok (decide (row.driveId ∈ x.excludeDrives)), .silent, w)
  if excluded then do
    match ← indexFileEmbeddings stripBase64 id (row.params [] none) with
    | some _ => pure ()
    | none => markFailed row
  else do
    let object ← Fallible.attempt (searchFile
      (getObject opts.backend (getS3Key row.orgId row.driveId row.path)))
    match object with
    | .error _ => markFailed row
    | .ok object => do
        let extracted ← searchSegment fun w x =>
          (.ok (extractIndexableText object.bytes
            (object.contentType.getD (detectMimeType row.path)) x.pdf), .silent, w)
        match extracted with
        | none => clearPending row
        | some (text, pageStarts) => do
            match ← indexFileEmbeddings stripBase64 id (row.params text pageStarts) with
            | some _ => pure ()
            | none => markFailed row

/-- Embed the files of a batch. -/
def embedRows (opts : EmbeddingMigrationOpts) : List PendingRow → SearchOp Unit
  | [] => pure ()
  | row :: rows => do
      embedPending stripBase64 opts row
      embedRows opts rows

/-- The loop over the batches. -/
def runPendingEmbeddings (opts : EmbeddingMigrationOpts) : Nat → Text × Text → SearchOp Unit
  | 0, _ => pure ()
  | fuel + 1, cursor => do
      let rows ← searchSegment fun w _ => (.ok (pendingRows opts cursor w), .silent, w)
      match rows.getLast? with
      | none => pure ()
      | some last => do
          embedRows stripBase64 opts rows
          runPendingEmbeddings opts fuel (last.driveId, last.path)

def runEmbeddingMigration (opts : EmbeddingMigrationOpts) (fuel : Nat) : SearchOp Unit := do
  if ← prepareEmbeddingMigrationWithWarmup opts.provider then
    runPendingEmbeddings stripBase64 opts fuel ([], [])
  else pure ()

end

end AgentFs

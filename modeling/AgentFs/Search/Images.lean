import AgentFs.Search.Pipeline

/-!
# The image embedding job

`runPendingImageEmbeddings` goes through the files whose image status is pending, in the order
of drive and path.  What reading, rendering and embedding a file gives is an input of the
segment that waited for it.  The loop over the batches has fuel, since files may be written
behind as well as before its cursor.
-/

namespace AgentFs

open Async

/-- The order of a drive and path, as SQLite compares row values. -/
def keyBefore (a b : Text × Text) : Prop :=
  a.1 < b.1 ∨ a.1 = b.1 ∧ a.2 < b.2

instance (a b : Text × Text) : Decidable (keyBefore a b) :=
  inferInstanceAs (Decidable (_ ∨ _))

/-- The drive and path of a file. -/
def FileRow.cursor (f : FileRow) : Text × Text := (f.driveId, f.path)

/-- A batch of live files after `cursor` with `p`, in the order of drive and path.  `drives`
gives the organization of each drive. -/
def selectFiles (drives : Text → Option Text) (p : FileRow → Prop) [DecidablePred p]
    (cursor : Text × Text) (batchSize : Nat) (db : Db) : List FileRow :=
  ((db.files.filter (fun f => p f ∧ f.isDeleted = false ∧ keyBefore cursor f.cursor ∧
      (drives f.driveId).isSome)).mergeSort
    (fun f g => ¬ keyBefore g.cursor f.cursor)).take batchSize

/-- The options of the image job. -/
structure ImageJobOpts where
  provider : EmbeddingProvider
  drives : Text → Option Text
  batchSize : Nat

/-- The job is for the version the live file has now. -/
def ImageRow.Current (row : ImageRow) (w : SearchWorld) : Prop :=
  readCurrentVersion w.world.db row.driveId row.path = some row.version

instance (row : ImageRow) (w : SearchWorld) : Decidable (row.Current w) :=
  inferInstanceAs (Decidable (_ = _))

/-- The next batch of the image job. -/
def pendingImages (opts : ImageJobOpts) (cursor : Text × Text) (excludeDrives : List Text)
    (w : SearchWorld) : List ImageRow :=
  (selectFiles opts.drives
    (fun f => w.index.imageStatus f.driveId f.path = some .pending ∧ f.driveId ∉ excludeDrives)
    cursor opts.batchSize w.world.db).map
    (fun f => ⟨f.driveId, f.path, f.currentVersionId, f.contentType⟩)

/-- The segment of the image job up to the provider. -/
def startImage (opts : ImageJobOpts) (pdfPageImages : Bool) (row : ImageRow) (w : SearchWorld)
    (x : SearchInput) : ImageJobStep × SearchWorld :=
  if row.Current w then
    if imageEligible (some opts.provider) (row.mime.getD []) pdfPageImages row.driveId
        x.excludeDrives then
      (.waiting, w)
    else (.ineligible, setImageStatus row.driveId row.path none w)
  else (.superseded, w)

/-- The `catch` of the image job. -/
def failImage (row : ImageRow) (w : SearchWorld) : ImageJobStep × SearchWorld :=
  if row.Current w then
    (.failed, setImageStatus row.driveId row.path (some .failed) w)
  else (.superseded, w)

/-- The rows of the images of a file, with their vectors. -/
def ImageRow.chunkRows (row : ImageRow) (parts : List (Option Nat × Bytes)) :
    List (ChunkRow × Bytes) :=
  parts.mapIdx (fun i part =>
    ({ id := 0
       filePath := row.path
       driveId := row.driveId
       chunkIndex := i
       content := []
       charOffset := 0
       tokenCount := 0
       page := part.1
       kind := .image }, part.2))

/-- The segment of the image job after the provider. -/
def finishImage (row : ImageRow) (w : SearchWorld) (x : SearchInput) :
    ImageJobStep × SearchWorld :=
  match x.parts with
  | none => if x.initializationError then (.stopped, w) else failImage row w
  | some parts =>
      if row.Current w then
        match replaceChunks row.driveId row.path .image x.insertFails (row.chunkRows parts) w with
        | none => failImage row w
        | some replaced =>
            (.replaced, setImageStatus row.driveId row.path (some .indexed) replaced)
      else (.superseded, w)

/-- A segment of the image job for a file. -/
def imageJobSegment (row : ImageRow)
    (f : SearchWorld → SearchInput → ImageJobStep × SearchWorld) : SearchOp ImageJobStep :=
  searchSegment fun w x =>
    let r := f w x
    (.ok r.1, .imageJob row r.1, r.2)

/-- Deal with the files of a batch; the answer says whether the run goes on. -/
def embedImages (opts : ImageJobOpts) (pdfPageImages : Bool) : List ImageRow → SearchOp Bool
  | [] => pure true
  | row :: rows => do
      match ← imageJobSegment row (startImage opts pdfPageImages row) with
      | .waiting => do
          match ← imageJobSegment row (finishImage row) with
          | .stopped => pure false
          | _ => embedImages opts pdfPageImages rows
      | _ => embedImages opts pdfPageImages rows

/-- The loop over the batches. -/
def imageBatches (opts : ImageJobOpts) (pdfPageImages : Bool) :
    Nat → Text × Text → SearchOp Unit
  | 0, _ => pure ()
  | fuel + 1, cursor => do
      let rows ← searchSegment fun w x =>
        (.ok (pendingImages opts cursor x.excludeDrives w), .silent, w)
      match rows.getLast? with
      | none => pure ()
      | some last => do
          if ← embedImages opts pdfPageImages rows then
            imageBatches opts pdfPageImages fuel (last.driveId, last.path)
          else pure ()

/-- The revision of the vectors that a provider stores. -/
def providerRevision (name : Text) : Nat :=
  if name = "local".toList then 3 else 2

/-- The format of the vectors of a provider. -/
def embeddingFormat (provider : EmbeddingProvider) : Text :=
  provider.name ++ ":v".toList ++ (toString (providerRevision provider.name)).toList

def runPendingImageEmbeddings (opts : ImageJobOpts) (fuel : Nat) : SearchOp Unit :=
  if "image/png".toList ∈ opts.provider.mimes ∧ opts.provider.embedsParts = true then do
    let pdfPageImages ← canRenderPdfPages
    let deferred ← searchSegment fun w _ =>
      (.ok (decide (w.metaRows.embeddingFormat ≠ some (embeddingFormat opts.provider))),
        .silent, w)
    if deferred then pure ()
    else imageBatches opts pdfPageImages fuel ([], [])
  else pure ()

end AgentFs

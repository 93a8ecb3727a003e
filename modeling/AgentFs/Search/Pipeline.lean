import AgentFs.Search.Operations

/-!
# Text embedding jobs

`indexFileEmbeddings` and the worker that runs the queued jobs.  The chunker and the provider
are outside: what they answer is an input of the segment that waited for them.  Every job
that has a slot runs here, while the code gives out two slots at a time.
-/

namespace AgentFs

open Async

/-- Longer text is not embedded. -/
def maxEmbedChars : Nat := 2000000

/-- What `indexFileEmbeddings` returns. -/
inductive EmbeddingOutcome where
  | indexed
  | skipped
  | superseded
  deriving DecidableEq, Repr

/-- The last page at or after `pageIndex` that starts at or before `offset`. -/
def advancePage (pageStarts : List Nat) (offset pageIndex : Nat) : Nat :=
  pageIndex + ((pageStarts.drop (pageIndex + 1)).takeWhile (fun start => start ≤ offset)).length

/-- `chunkPages`, from the page `pageIndex` on. -/
def chunkPagesFrom (pageStarts : List Nat) : Nat → List Chunk → List Nat
  | _, [] => []
  | pageIndex, chunk :: chunks =>
      let trimmed := chunk.content.dropWhile (fun c => IsWhiteSpace c)
      let offset := chunk.charOffset + (utf16Length chunk.content - utf16Length trimmed)
      let pageIndex := advancePage pageStarts offset pageIndex
      (pageIndex + 1) :: chunkPagesFrom pageStarts pageIndex chunks

/-- The page of the first character of each chunk that is not white space. -/
def chunkPages (chunks : List Chunk) (pageStarts : List Nat) : List Nat :=
  chunkPagesFrom pageStarts 0 chunks

/-! ### Inserting chunks -/

/-- Insert a chunk and its vector.  The table picks the id of the chunk. -/
def IndexTables.insertChunk (t : IndexTables) (row : ChunkRow) (vector : Bytes) : IndexTables :=
  { t with
    contentChunks := t.contentChunks ++ [{ row with id := t.chunkSeq + 1 }]
    chunkSeq := t.chunkSeq + 1
    chunkVectors := t.chunkVectors ++ [⟨t.chunkSeq + 1, vector⟩] }

/-- Insert chunks and their vectors, the first chunk with insert `n`, unless one of the
inserts throws. -/
def insertChunks (fails : Nat → Bool) :
    Nat → List (ChunkRow × Bytes) → IndexTables → Option IndexTables
  | _, [], t => some t
  | n, (row, vector) :: rows, t =>
      if fails n ∨ fails (n + 1) then none
      else insertChunks fails (n + 2) rows (t.insertChunk row vector)

/-- Replace the chunks of a kind in the course of a transaction. -/
def replaceChunks (driveId path : Text) (kind : ChunkDeleteScope) (fails : Nat → Bool)
    (rows : List (ChunkRow × Bytes)) (w : SearchWorld) : Option SearchWorld :=
  let w := deleteChunks driveId path kind w
  if fails 0 then none
  else (insertChunks fails 1 rows w.index.toIndexTables).map
    (fun t => { w with index := { w.index with toIndexTables := t } })

/-! ### `indexFileEmbeddings` -/

/-- The job is for the version the live file has now. -/
def EmbeddingParams.Current (params : EmbeddingParams) (w : SearchWorld) : Prop :=
  readCurrentVersion w.world.db params.driveId params.path = some params.version

instance (params : EmbeddingParams) (w : SearchWorld) : Decidable (params.Current w) :=
  inferInstanceAs (Decidable (_ = _))

/-- The rows of the chunks of a job, with their vectors. -/
def EmbeddingParams.chunkRows (params : EmbeddingParams) (chunks : List Chunk)
    (vectors : List Bytes) : List (ChunkRow × Bytes) :=
  let pages := params.pageStarts.map (chunkPages chunks)
  let rows := chunks.mapIdx (fun i chunk => {
    id := 0
    filePath := params.path
    driveId := params.driveId
    chunkIndex := i
    content := chunk.content
    charOffset := chunk.charOffset
    tokenCount := chunk.tokenCount
    page := pages.bind (fun pages => pages[i]?)
    kind := .text })
  rows.zip vectors

/-- The status a job that replaces the chunks leaves. -/
def EmbeddingParams.finalStatus (params : EmbeddingParams) (skipped : Bool)
    (chunks : List Chunk) : Option EmbeddingStatus :=
  if skipped then some .skipped
  else if chunks = [] ∧ params.pageStarts = none then none
  else some .indexed

/-- Where a segment of a job leaves it. -/
inductive JobNext where
  /-- The job has ended, with an outcome or by throwing. -/
  | ended (outcome : Option EmbeddingOutcome)
  /-- It waits for the chunks of its text. -/
  | chunking
  /-- It waits for the vectors of the chunks. -/
  | embedding (chunks : List Chunk)
  deriving DecidableEq, Repr

/-- The `catch` of a job. -/
def failTextJob (params : EmbeddingParams) (w : SearchWorld) :
    JobNext × TextJobStep × SearchWorld :=
  if params.Current w then
    (.ended none, .failed, setTextStatus params.driveId params.path (some .failed) w)
  else (.ended (some .superseded), .superseded, w)

/-- The transaction of a job, and its `catch` when it throws. -/
def replaceTextChunks (params : EmbeddingParams) (skipped : Bool) (chunks : List Chunk)
    (vectors : List Bytes) (fails : Nat → Bool) (w : SearchWorld) :
    JobNext × TextJobStep × SearchWorld :=
  if params.Current w then
    let refreshed := if params.refreshFts then
      indexFile params.driveId params.path params.content w else w
    match replaceChunks params.driveId params.path .text fails
        (params.chunkRows chunks vectors) refreshed with
    | none => failTextJob params w
    | some replaced =>
        let status := params.finalStatus skipped chunks
        let outcome := if status = some .indexed then .indexed else .skipped
        (.ended (some outcome), .replaced status,
          setTextStatus params.driveId params.path status replaced)
  else (.ended (some .superseded), .superseded, w)

section

variable (stripBase64 : Text → Text)

/-- The text that a job splits into chunks. -/
def EmbeddingParams.embedText (params : EmbeddingParams) : Text :=
  if params.pageStarts = none then stripBase64 params.content else params.content

/-- The text is not embedded: its drive is excluded, or it is over a size limit. -/
def EmbeddingParams.skipped (params : EmbeddingParams) (x : SearchInput) : Bool :=
  params.driveId ∈ x.excludeDrives ∨
    utf16Length (params.embedText stripBase64) > maxEmbedChars ∨
    x.maxBytes.any (fun maxBytes =>
      (textEncode (params.embedText stripBase64)).length > maxBytes)

/-- The segment of a job up to the chunker.  Blank or skipped text goes to the transaction at
once. -/
def startTextJob (params : EmbeddingParams) (w : SearchWorld) (x : SearchInput) :
    JobNext × TextJobStep × SearchWorld :=
  if params.Current w then
    let skipped := params.skipped stripBase64 x
    if skipped ∨ trim (params.embedText stripBase64) = [] then
      replaceTextChunks params skipped [] [] x.insertFails w
    else (.chunking, .waiting, w)
  else (.ended (some .superseded), .superseded, w)

/-- The segment after the chunker. -/
def chunkTextJob (params : EmbeddingParams) (w : SearchWorld) (x : SearchInput) :
    JobNext × TextJobStep × SearchWorld :=
  match x.chunks with
  | none => failTextJob params w
  | some [] => replaceTextChunks params false [] [] x.insertFails w
  | some chunks => (.embedding chunks, .waiting, w)

/-- The segment after the provider. -/
def embedTextJob (params : EmbeddingParams) (chunks : List Chunk) (w : SearchWorld)
    (x : SearchInput) : JobNext × TextJobStep × SearchWorld :=
  match x.embeddings with
  | none => failTextJob params w
  | some vectors =>
      if vectors.length ≠ chunks.length then failTextJob params w
      else replaceTextChunks params false chunks vectors x.insertFails w

/-- A segment of a job; `finish` is what the caller does when the job has ended. -/
def textJobSegment (finish : SearchWorld → SearchWorld) (params : EmbeddingParams)
    (f : SearchWorld → SearchInput → JobNext × TextJobStep × SearchWorld) : SearchOp JobNext :=
  searchSegment fun w x =>
    let r := f w x
    (.ok r.1, .textJob params r.2.1, match r.1 with
      | .ended _ => finish r.2.2
      | _ => r.2.2)

/-- The rest of a job whose chunker has answered. -/
def embedChunks (finish : SearchWorld → SearchWorld) (params : EmbeddingParams) :
    JobNext → SearchOp (Option EmbeddingOutcome)
  | .embedding chunks => do
      match ← textJobSegment finish params (embedTextJob params chunks) with
      | .ended outcome => pure outcome
      | _ => pure none
  | .ended outcome => pure outcome
  | .chunking => pure none

/-- Embed the content of a file and replace its chunks.  A job that throws has no outcome. -/
def indexFileEmbeddings (finish : SearchWorld → SearchWorld) (params : EmbeddingParams) :
    SearchOp (Option EmbeddingOutcome) := do
  match ← textJobSegment finish params (startTextJob stripBase64 params) with
  | .ended outcome => pure outcome
  | _ =>
      let next ← textJobSegment finish params (chunkTextJob params)
      embedChunks finish params next

/-! ### The worker -/

/-- Give a slot to the job at the head of the queue. -/
def dequeueJob : SearchOp (Option EmbeddingJob) :=
  searchSegment fun w _ =>
    match w.queued with
    | [] => (.ok none, .dequeued none, w)
    | job :: jobs =>
        (.ok (some job), .dequeued (some job),
          { w with
            queued := jobs
            running := w.running ++ [job] })

/-- Give back the slot of a job. -/
def releaseJob (job : EmbeddingJob) (w : SearchWorld) : SearchWorld :=
  { w with running := w.running.filter (fun other => other ≠ job) }

/-- Run a queued job.  An error of the job is only logged. -/
def embeddingWorker : SearchOp Unit := do
  match ← dequeueJob with
  | none => pure ()
  | some job =>
      let _ ← indexFileEmbeddings stripBase64 (releaseJob job) job.params

end

/-- Drop the chunks of a file and its status, unless a newer write owns it. -/
def clearEmbeddings (driveId path : Text) (version : Option Text) (kind : ChunkDeleteScope)
    (w : SearchWorld) : Bool × SearchWorld :=
  if readCurrentVersion w.world.db driveId path = some version then
    (true, clearStatuses driveId path kind (deleteChunks driveId path kind w))
  else (false, w)

end AgentFs

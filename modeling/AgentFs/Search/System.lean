import AgentFs.Ops.Law
import AgentFs.Search.EmbeddingMigration
import AgentFs.Search.FtsMigration

/-!
# Runs of the search system

The requests of the search system and the pool they run in: file operations, embedding jobs
and migrations.  `SearchStep` says all that one segment of any of them can do; the results
about runs rest on it and unfold no operation.
-/

namespace AgentFs

open Async

/-- A request to the search system. -/
inductive SearchRequest where
  | write (ctx : SearchContext) (params : WriteParams)
  | writeRaw (limit : WriteOpts) (ctx : SearchContext) (params : WriteRawParams)
  | edit (ctx : SearchContext) (params : EditParams)
  | append (ctx : SearchContext) (params : AppendParams)
  | revert (ctx : SearchContext) (params : RevertParams)
  | cp (ctx : SearchContext) (params : CpParams)
  | mv (ctx : SearchContext) (params : MvParams)
  | rm (ctx : SearchContext) (params : RmParams)
  /-- Run the next queued text embedding job. -/
  | embeddingWorker
  | runPendingImageEmbeddings (opts : ImageJobOpts) (fuel : Nat)
  | runEmbeddingMigration (opts : EmbeddingMigrationOpts) (fuel : Nat)
  | runFtsMigration (opts : FtsMigrationOpts) (fuel : Nat)

/-- The context of a file operation. -/
def SearchRequest.context? : SearchRequest → Option SearchContext
  | .write ctx _ => some ctx
  | .writeRaw _ ctx _ => some ctx
  | .edit ctx _ => some ctx
  | .append ctx _ => some ctx
  | .revert ctx _ => some ctx
  | .cp ctx _ => some ctx
  | .mv ctx _ => some ctx
  | .rm ctx _ => some ctx
  | _ => none

/-- What a request to the search system answers. -/
abbrev SearchAnswer := Option Response

section

variable (sha256 : Bytes → Text) (stripBase64 : Text → Text)

/-- Answer with the response of a file operation. -/
def answerFile (op : SearchOp Response) : SearchOp SearchAnswer := do
  let response ← op
  pure (some response)

/-- Run a job, which has no response. -/
def runJob (op : SearchOp Unit) : SearchOp SearchAnswer := do
  op
  pure none

/-- The program of a request. -/
def SearchRequest.program : SearchRequest → SearchOp SearchAnswer
  | .write ctx params => answerFile (searchWrite sha256 ctx params)
  | .writeRaw limit ctx params => answerFile (searchWriteRaw sha256 limit ctx params)
  | .edit ctx params => answerFile (searchEdit sha256 ctx params)
  | .append ctx params => answerFile (searchAppend sha256 ctx params)
  | .revert ctx params => answerFile (searchRevert sha256 ctx params)
  | .cp ctx params => answerFile (searchCp sha256 ctx params)
  | .mv ctx params => answerFile (searchMv sha256 ctx params)
  | .rm ctx params => answerFile (searchRm ctx params)
  | .embeddingWorker => runJob (AgentFs.embeddingWorker stripBase64)
  | .runPendingImageEmbeddings opts fuel => runJob (AgentFs.runPendingImageEmbeddings opts fuel)
  | .runEmbeddingMigration opts fuel =>
      runJob (AgentFs.runEmbeddingMigration stripBase64 opts fuel)
  | .runFtsMigration opts fuel => runJob (AgentFs.runFtsMigration opts fuel)

/-- The search system over a world, with the requests it has just received. -/
def searchPool (w : SearchWorld) (requests : List SearchRequest) :
    Pool SearchWorld SearchInput SearchEvent (Except OpError SearchAnswer) where
  conf := ⟨w, []⟩
  procs := requests.map (fun r => (r.program sha256 stripBase64).run)

end

/-! ### What a step does -/

/-- What a segment of a text embedding job can do to the index. -/
inductive TextJobTurn (params : EmbeddingParams) (w : SearchWorld) :
    TextJobStep → SearchWorld → Prop where
  | waiting : TextJobTurn params w .waiting w
  | superseded (stale : ¬ params.Current w) : TextJobTurn params w .superseded w
  | failed (current : params.Current w) :
      TextJobTurn params w .failed (setTextStatus params.driveId params.path (some .failed) w)
  | replaced (current : params.Current w) {w₁ : SearchWorld} (fails : Nat → Bool)
      (rows : List (ChunkRow × Bytes)) (status : Option EmbeddingStatus)
      (kind : ∀ row ∈ rows, row.1.At params.driveId params.path ∧ row.1.kind = .text)
      (settled : status ≠ some .pending)
      (tx : replaceChunks params.driveId params.path .text fails rows
        (if params.refreshFts then indexFile params.driveId params.path params.content w else w) =
          some w₁) :
      TextJobTurn params w (.replaced status) (setTextStatus params.driveId params.path status w₁)

/-- What a segment of the image job can do to the index. -/
inductive ImageJobTurn (row : ImageRow) (w : SearchWorld) : ImageJobStep → SearchWorld → Prop where
  | waiting : ImageJobTurn row w .waiting w
  | superseded (stale : ¬ row.Current w) : ImageJobTurn row w .superseded w
  | stopped : ImageJobTurn row w .stopped w
  | ineligible (current : row.Current w) :
      ImageJobTurn row w .ineligible (setImageStatus row.driveId row.path none w)
  | failed (current : row.Current w) :
      ImageJobTurn row w .failed (setImageStatus row.driveId row.path (some .failed) w)
  | replaced (current : row.Current w) {w₁ : SearchWorld} (fails : Nat → Bool)
      (rows : List (ChunkRow × Bytes))
      (kind : ∀ r ∈ rows, r.1.At row.driveId row.path ∧ r.1.kind = .image)
      (tx : replaceChunks row.driveId row.path .image fails rows w = some w₁) :
      ImageJobTurn row w .replaced (setImageStatus row.driveId row.path (some .indexed) w₁)

/-- The last segment of a move: what it does to the index, when the target still has the
version `targetVersion` and when it has not. -/
inductive MoveTurn (driveId source target : Text) (w : SearchWorld) :
    MovedIndex → SearchWorld → Prop where
  | moved (targetVersion : Option (Option Text)) (src : MoveSource) (content : Option Text)
      (moves : Bool) (status : Option EmbeddingStatus)
      (current : readCurrentVersion w.world.db driveId target = targetVersion) :
      MoveTurn driveId source target w (.moved content status)
        (moveIndex driveId source target src content moves status w)
  | superseded (targetVersion : Option (Option Text))
      (stale : readCurrentVersion w.world.db driveId target ≠ targetVersion) :
      MoveTurn driveId source target w (.superseded targetVersion)
        (clearSearchData driveId source .all w)

/-- Which programs a system runs: file operations in the contexts of `operates`, and the
embedding migration if `migrates`. -/
structure SearchPerms where
  operates : SearchContext → Prop
  migrates : Prop

/-- The system may run the request. -/
structure SearchRequest.Permitted (J : SearchPerms) (request : SearchRequest) : Prop where
  operates : ∀ ctx, request.context? = some ctx → J.operates ctx
  migrates : ∀ opts fuel, request = .runEmbeddingMigration opts fuel → J.migrates

section

variable (sha256 : Bytes → Text) (J : SearchPerms)

/-- What one segment can do: the event it reports, and the world it leaves. -/
inductive SearchStep (x : SearchInput) (w : SearchWorld) : SearchEvent → SearchWorld → Prop where
  | silent : SearchStep x w .silent w
  | file (ctx : OpContext) {ev : Event} {world : World}
      (lawful : LawfulStep sha256 ctx w.world x.toInput (ev, world)) :
      SearchStep x w (.file ev) { w with world := world }
  | readVersion (driveId path : Text) :
      SearchStep x w (.readVersion driveId path (readCurrentVersion w.world.db driveId path)) w
  | superseded (ctx : SearchContext) (known : J.operates ctx) (path : Text)
      (version : Option (Option Text))
      (stale : readCurrentVersion w.world.db ctx.driveId path ≠ version) :
      SearchStep x w (.superseded ctx.driveId path version) w
  | indexedText (ctx : SearchContext) (known : J.operates ctx) (path content : Text)
      (pageStarts : Option (List Nat)) (pdfPageImages : Bool) :
      SearchStep x w (.indexedText ctx.driveId path content)
        (indexText ctx path content pageStarts pdfPageImages x.excludeDrives w)
  | indexedImage (ctx : SearchContext) (path contentType : Text) (pdfPageImages : Bool) :
      SearchStep x w
        (.indexedImage ctx.driveId path (readCurrentVersion w.world.db ctx.driveId path))
        (indexImage ctx path contentType pdfPageImages x.excludeDrives w)
  | clearedText (ctx : SearchContext) (path contentType : Text) (pdfPageImages : Bool) :
      SearchStep x w (.clearedText ctx.driveId path)
        (clearSearchData ctx.driveId path .text
          (indexImage ctx path contentType pdfPageImages x.excludeDrives w))
  | removed (driveId path : Text) :
      SearchStep x w (.removed driveId path) (clearSearchData driveId path .all w)
  | removedSource (driveId path : Text) :
      SearchStep x w (.removedSource driveId path) (removeFromIndex driveId path w)
  | moved (ctx : SearchContext) (known : J.operates ctx) (source target : Text)
      {what : MovedIndex} {w' : SearchWorld}
      (turn : MoveTurn ctx.driveId source target w what w') :
      SearchStep x w (.moved ctx.driveId source target what) w'
  | idle : SearchStep x w (.dequeued none) w
  | dequeued (job : EmbeddingJob) (jobs : List EmbeddingJob) (head : w.queued = job :: jobs) :
      SearchStep x w (.dequeued (some job))
        { w with
          queued := jobs
          running := w.running ++ [job] }
  | textJob (params : EmbeddingParams) {step : TextJobStep} {w' : SearchWorld}
      (turn : TextJobTurn params w step w') :
      SearchStep x w (.textJob params step) w'
  /-- The last segment of a queued job. -/
  | released (job : EmbeddingJob) {step : TextJobStep} {w' : SearchWorld}
      (turn : TextJobTurn job.params w step w') (ends : step ≠ .waiting) :
      SearchStep x w (.textJob job.params step) (releaseJob job w')
  /-- `clearEmbeddings`. -/
  | cleared (params : EmbeddingParams) (current : params.Current w) :
      SearchStep x w (.textJob params (.replaced none))
        (clearStatuses params.driveId params.path .text
          (deleteChunks params.driveId params.path .text w))
  | imageJob (row : ImageRow) {step : ImageJobStep} {w' : SearchWorld}
      (turn : ImageJobTurn row w step w') :
      SearchStep x w (.imageJob row step) w'
  | rolledBack : SearchStep x w .embeddingMigration w
  | resetFormat (known : J.migrates) (format : Text) :
      SearchStep x w .embeddingMigration (resetFormat format w)
  | applySettings (known : J.migrates) (maxBytes : Option Nat) (excludeDrives : List Text) :
      SearchStep x w .embeddingMigration (applySettings maxBytes excludeDrives w)
  | retryFailed (known : J.migrates) (format : Text) :
      SearchStep x w .embeddingMigration (retryFailed format w)
  | backfillPdfs (known : J.migrates) : SearchStep x w .embeddingMigration (backfillPdfs w)
  | markedFailed (known : J.migrates) (driveId path : Text) :
      SearchStep x w .embeddingMigration (setTextStatus driveId path (some .failed) w)
  | copiedBatch (rows : List FtsRow) (cursor : Nat) :
      SearchStep x w (.copiedBatch rows) (copyBatch rows cursor w)
  | droppedLegacy : SearchStep x w .droppedLegacy (dropLegacy w)

/-- A segment that always does one of the steps. -/
def SearchSegment (f : SearchWorld → SearchInput → SearchEvent × SearchWorld) : Prop :=
  ∀ w x, SearchStep sha256 J x w (f w x).1 (f w x).2

/-- A step of a run that is one of the steps, on some input. -/
def SearchLawful (w : SearchWorld) (r : SearchEvent × SearchWorld) : Prop :=
  ∃ x, SearchStep sha256 J x w r.1 r.2

end

/-! ### Samples -/

/-- A provider for text. -/
def sampleProvider : EmbeddingProvider := ⟨"local".toList, [], false⟩

/-- The sample context with a provider. -/
def sampleSearchContext : SearchContext :=
  { sampleContext with embeddingProvider := some sampleProvider }

/-- An input on which nothing fails: every text is one chunk. -/
def sampleSearchInput : SearchInput :=
  { sampleInput with
    pdfPageImages := false
    pdf := ([], [])
    chunks := some [⟨"a".toList, 0, 1⟩]
    embeddings := some [[1]]
    parts := none
    initializationError := false
    insertFails := fun _ => false
    excludeDrives := []
    maxBytes := none }

/-- A write of `content` to `path`. -/
def sampleSearchWrite (path content : String) : SearchRequest :=
  .write sampleSearchContext
    { path := path.toList, content := content.toList, expectedVersion := none }

/-- The sample system: the requests over the empty world, after they have run in the given
order. -/
def sampleSearch (requests : List SearchRequest) (order : List Nat) :
    Pool SearchWorld SearchInput SearchEvent (Except OpError SearchAnswer) :=
  (searchPool sampleHash id .empty requests).run (order.map (·, sampleSearchInput))

end AgentFs

import AgentFs.Search.System

/-!
# What a segment of the search system does

Every segment of every request to the search system is a `SearchStep`.
-/

namespace AgentFs

open Async

section

variable {sha256 : Bytes → Text} {J : SearchPerms}

theorem searchSegment_steps {α : Type}
    {f : SearchWorld → SearchInput → Except OpError α × SearchEvent × SearchWorld}
    (h : ∀ w x, SearchStep sha256 J x w (f w x).2.1 (f w x).2.2) :
  (searchSegment f).run.Segments (SearchSegment sha256 J)
  := Fallible.segments_atomic h

theorem searchFile_steps {α : Type} (ctx : OpContext) {op : Op α}
    (h : op.run.Segments (LawfulSegment sha256 ctx)) :
  (searchFile op).run.Segments (SearchSegment sha256 J)
  := by
  apply Prog.Segments.embed _ h
  intro f hf w x
  exact .file ctx (hf w.world x.toInput)

/-! ### Indexing -/

theorem readVersion_steps (ctx : SearchContext) (path : Text) :
  (readVersion ctx path).run.Segments (SearchSegment sha256 J)
  := searchSegment_steps (fun _ _ => .readVersion _ _)

theorem canRenderPdfPages_steps :
  canRenderPdfPages.run.Segments (SearchSegment sha256 J)
  := searchSegment_steps (fun _ _ => .silent)

theorem indexTextSince_steps {ctx : SearchContext} (hctx : J.operates ctx) (path content : Text)
    (pageStarts : Option (List Nat)) (version : Option (Option Text)) :
  (indexTextSince ctx path content pageStarts version).run.Segments (SearchSegment sha256 J)
  := by
  apply searchSegment_steps
  intro w x
  split
  · rename_i hstale
    exact .superseded ctx hctx _ _ hstale
  · exact .indexedText ctx hctx path content pageStarts x.pdfPageImages

theorem indexTextForSearch_steps {ctx : SearchContext} (hctx : J.operates ctx) (path content : Text)
    (pageStarts : Option (List Nat)) :
  (indexTextForSearch ctx path content pageStarts).run.Segments (SearchSegment sha256 J)
  := Fallible.segments_bind (readVersion_steps _ _)
    (fun _ => indexTextSince_steps hctx _ _ _ _)

theorem indexExtracted_steps {ctx : SearchContext} (hctx : J.operates ctx)
    (path contentType : Text) (bytes : Bytes) (version : Option (Option Text))
    (pdfPageImages : Bool) :
  (indexExtracted ctx path contentType bytes version pdfPageImages).run.Segments
    (SearchSegment sha256 J)
  := by
  apply searchSegment_steps
  intro w x
  split
  · rename_i hstale
    exact .superseded ctx hctx _ _ hstale
  · split
    · exact .clearedText ctx path contentType pdfPageImages
    · dsimp only
      rw [indexImage_world]
      exact .indexedImage ctx path contentType pdfPageImages

theorem indexBytesForSearch_steps {ctx : SearchContext} (hctx : J.operates ctx) (path contentType : Text)
    (bytes : Bytes) :
  (indexBytesForSearch ctx path contentType bytes).run.Segments (SearchSegment sha256 J)
  := by
  apply Fallible.segments_bind (readVersion_steps _ _)
  intro version
  apply Fallible.segments_bind canRenderPdfPages_steps
  intro pdfPageImages
  apply Fallible.segments_bind (indexExtracted_steps hctx _ _ _ _ _)
  rintro (_ | ⟨text, pageStarts, version⟩)
  · exact Fallible.segments_pure _
  · exact indexTextSince_steps hctx _ _ _ _

/-! ### File operations -/

theorem searchWriteInternal_steps {ctx : SearchContext} (hctx : J.operates ctx) (params : WriteRawParams)
    (opts : WriteOpts) (indexable : Indexable) :
  (searchWriteInternal sha256 ctx params opts indexable).run.Segments (SearchSegment sha256 J)
  := by
  unfold searchWriteInternal
  dsimp only
  split
  · exact Fallible.segments_throw _
  · apply Fallible.segments_bind (searchFile_steps ctx.toOpContext (dedupVersion_lawful _ _ _ _))
    rintro (_ | current)
    · apply Fallible.segments_bind
        (searchFile_steps ctx.toOpContext (storeVersion_lawful _ _ _ _ _ _))
      intro version
      cases indexable with
      | text content =>
          apply Fallible.segments_bind (indexTextForSearch_steps hctx _ _ _)
          exact fun _ => Fallible.segments_pure _
      | bytes =>
          apply Fallible.segments_bind (indexBytesForSearch_steps hctx _ _ _)
          exact fun _ => Fallible.segments_pure _
    · exact Fallible.segments_pure _

theorem searchEdit_steps {ctx : SearchContext} (hctx : J.operates ctx) (params : EditParams) :
  (searchEdit sha256 ctx params).run.Segments (SearchSegment sha256 J)
  := by
  apply Fallible.segments_bind
    (searchFile_steps ctx.toOpContext (checkExpectedVersion_lawful _ _ _))
  intro _
  apply Fallible.segments_bind
    (searchFile_steps ctx.toOpContext (Fallible.segments_mapError (getObject_lawful _ _)))
  intro object
  dsimp only
  split
  · exact Fallible.segments_throw _
  · split
    · exact Fallible.segments_throw _
    · apply Fallible.segments_bind
        (searchFile_steps ctx.toOpContext (storeVersion_lawful _ _ _ _ _ _))
      intro version
      apply Fallible.segments_bind (indexTextForSearch_steps hctx _ _ _)
      exact fun _ => Fallible.segments_pure _

theorem searchAppend_steps {ctx : SearchContext} (hctx : J.operates ctx) (params : AppendParams) :
  (searchAppend sha256 ctx params).run.Segments (SearchSegment sha256 J)
  := by
  apply Fallible.segments_bind
    (searchFile_steps ctx.toOpContext (checkExpectedVersion_lawful _ _ _))
  intro _
  apply Fallible.segments_bind
    (searchFile_steps ctx.toOpContext (Fallible.segments_mapError (getObject_lawful _ _)))
  intro object
  apply Fallible.segments_bind (searchFile_steps ctx.toOpContext (storeVersion_lawful _ _ _ _ _ _))
  intro version
  apply Fallible.segments_bind (indexTextForSearch_steps hctx _ _ _)
  exact fun _ => Fallible.segments_pure _

theorem searchRevert_steps {ctx : SearchContext} (hctx : J.operates ctx) (params : RevertParams) :
  (searchRevert sha256 ctx params).run.Segments (SearchSegment sha256 J)
  := by
  unfold searchRevert
  dsimp only
  split
  · exact Fallible.segments_throw _
  · apply Fallible.segments_bind
      (searchFile_steps ctx.toOpContext (checkExpectedVersion_lawful _ _ _))
    intro _
    apply Fallible.segments_bind (searchFile_steps ctx.toOpContext (findVersion_lawful _ _ _))
    intro targetVersion
    split
    · exact Fallible.segments_throw _
    · apply Fallible.segments_bind
        (searchFile_steps ctx.toOpContext (getObjectVersion_lawful _ _ _))
      intro oldContent
      apply Fallible.segments_bind
        (searchFile_steps ctx.toOpContext (storeVersion_lawful _ _ _ _ _ _))
      intro version
      apply Fallible.segments_bind (indexBytesForSearch_steps hctx _ _ _)
      exact fun _ => Fallible.segments_pure _

theorem searchCp_steps {ctx : SearchContext} (hctx : J.operates ctx) (params : CpParams) :
  (searchCp sha256 ctx params).run.Segments (SearchSegment sha256 J)
  := by
  unfold searchCp
  dsimp only
  split
  · exact Fallible.segments_throw _
  · apply Fallible.segments_bind
      (searchFile_steps ctx.toOpContext (checkExpectedVersion_lawful _ _ _))
    intro _
    apply Fallible.segments_bind (searchFile_steps ctx.toOpContext (copyObject_lawful _ _ _))
    intro copyResult
    apply Fallible.segments_bind (searchFile_steps ctx.toOpContext (getObject_lawful _ _))
    intro head
    apply Fallible.segments_bind (searchFile_steps ctx.toOpContext (getObject_lawful _ _))
    intro obj
    apply Fallible.segments_bind (searchFile_steps ctx.toOpContext (createVersion_lawful _ _))
    intro version
    apply Fallible.segments_bind (indexBytesForSearch_steps hctx _ _ _)
    exact fun _ => Fallible.segments_pure _

theorem finishMove_steps {ctx : SearchContext} (hctx : J.operates ctx) (source target contentType : Text) (bytes : Bytes)
    (src : MoveSource) (targetVersion : Option (Option Text)) :
  (finishMove ctx source target contentType bytes src targetVersion).run.Segments
    (SearchSegment sha256 J)
  := by
  apply searchSegment_steps
  intro w x
  dsimp only
  split
  · rename_i hcurrent
    exact .moved ctx hctx _ _ (.moved targetVersion _ _ _ _ hcurrent)
  · rename_i hstale
    exact .moved ctx hctx _ _ (.superseded targetVersion hstale)

theorem searchMv_steps {ctx : SearchContext} (hctx : J.operates ctx) (params : MvParams) :
  (searchMv sha256 ctx params).run.Segments (SearchSegment sha256 J)
  := by
  unfold searchMv
  dsimp only
  split
  · exact Fallible.segments_throw _
  · apply Fallible.segments_bind canRenderPdfPages_steps
    intro pdfPageImages
    apply Fallible.segments_bind
      (searchFile_steps ctx.toOpContext (checkExpectedVersion_lawful _ _ _))
    intro _
    apply Fallible.segments_bind (searchFile_steps ctx.toOpContext (copyObject_lawful _ _ _))
    intro copyResult
    apply Fallible.segments_bind (searchFile_steps ctx.toOpContext (getObject_lawful _ _))
    intro head
    apply Fallible.segments_bind (searchFile_steps ctx.toOpContext (getObject_lawful _ _))
    intro obj
    apply Fallible.segments_bind (searchSegment_steps (fun _ _ => .silent))
    intro src
    apply Fallible.segments_bind (searchFile_steps ctx.toOpContext (createVersion_lawful _ _))
    intro version
    apply Fallible.segments_bind (readVersion_steps _ _)
    intro targetVersion
    apply Fallible.segments_bind (searchFile_steps ctx.toOpContext (deleteVersion_lawful _ _ _))
    intro _
    apply Fallible.segments_bind (searchSegment_steps (fun _ _ => .removedSource _ _))
    intro _
    apply Fallible.segments_bind (finishMove_steps hctx _ _ _ _ _ _)
    exact fun _ => Fallible.segments_pure _

theorem searchRm_steps (ctx : SearchContext) (params : RmParams) :
  (searchRm ctx params).run.Segments (SearchSegment sha256 J)
  := by
  apply Fallible.segments_bind
    (searchFile_steps ctx.toOpContext (checkExpectedVersion_lawful _ _ _))
  intro _
  apply Fallible.segments_bind (searchFile_steps ctx.toOpContext (deleteVersion_lawful _ _ _))
  intro _
  apply Fallible.segments_bind (searchSegment_steps (fun _ _ => .removed _ _))
  intro _
  apply Fallible.segments_bind (searchFile_steps ctx.toOpContext (softDeleteComments_lawful _ _))
  exact fun _ => Fallible.segments_pure _

/-! ### Text embedding jobs -/

/-- What a segment of a job that has not ended, or has ended by `step`, leaves. -/
def JobNext.Fits : JobNext → TextJobStep → Prop
  | .ended _, step => step ≠ .waiting
  | _, step => step = .waiting

/-- A segment of a job that does a turn of the job. -/
def TextJobTurns (params : EmbeddingParams) (r : JobNext × TextJobStep × SearchWorld)
    (w : SearchWorld) : Prop :=
  TextJobTurn params w r.2.1 r.2.2 ∧ r.1.Fits r.2.1

theorem failTextJob_turns (params : EmbeddingParams) (w : SearchWorld) :
  TextJobTurns params (failTextJob params w) w
  := by
  unfold failTextJob
  split
  · rename_i hcurrent
    exact ⟨.failed hcurrent, by simp [JobNext.Fits]⟩
  · rename_i hstale
    exact ⟨.superseded hstale, by simp [JobNext.Fits]⟩

/-- The rows of a job are text chunks of its file. -/
theorem EmbeddingParams.chunkRows_kind (params : EmbeddingParams) (chunks : List Chunk)
    (vectors : List Bytes) {row : ChunkRow × Bytes} (h : row ∈ params.chunkRows chunks vectors) :
  row.1.At params.driveId params.path ∧ row.1.kind = .text
  := by
  have hrow := (List.of_mem_zip (show (row.1, row.2) ∈ _ from h)).1
  obtain ⟨i, hi, hrow⟩ := List.mem_mapIdx.mp hrow
  rw [← hrow]
  exact ⟨⟨rfl, rfl⟩, rfl⟩

theorem EmbeddingParams.finalStatus_ne_pending (params : EmbeddingParams) (skipped : Bool)
    (chunks : List Chunk) :
  params.finalStatus skipped chunks ≠ some .pending
  := by
  unfold finalStatus
  split
  · simp
  · split <;> simp

theorem replaceTextChunks_turns (params : EmbeddingParams) (skipped : Bool) (chunks : List Chunk)
    (vectors : List Bytes) (fails : Nat → Bool) (w : SearchWorld) :
  TextJobTurns params (replaceTextChunks params skipped chunks vectors fails w) w
  := by
  unfold replaceTextChunks
  split
  · rename_i hcurrent
    dsimp only
    split
    · exact failTextJob_turns params w
    · rename_i w₁ htx
      exact ⟨.replaced hcurrent fails _ _ (fun _ => params.chunkRows_kind chunks vectors)
        (params.finalStatus_ne_pending skipped chunks) htx, by simp [JobNext.Fits]⟩
  · rename_i hstale
    exact ⟨.superseded hstale, by simp [JobNext.Fits]⟩

theorem startTextJob_turns (stripBase64 : Text → Text) (params : EmbeddingParams)
    (w : SearchWorld) (x : SearchInput) :
  TextJobTurns params (startTextJob stripBase64 params w x) w
  := by
  unfold startTextJob
  split
  · dsimp only
    split
    · exact replaceTextChunks_turns _ _ _ _ _ _
    · exact ⟨.waiting, rfl⟩
  · rename_i hstale
    exact ⟨.superseded hstale, by simp [JobNext.Fits]⟩

theorem chunkTextJob_turns (params : EmbeddingParams) (w : SearchWorld) (x : SearchInput) :
  TextJobTurns params (chunkTextJob params w x) w
  := by
  unfold chunkTextJob
  split
  · exact failTextJob_turns _ _
  · exact replaceTextChunks_turns _ _ _ _ _ _
  · exact ⟨.waiting, rfl⟩

theorem embedTextJob_turns (params : EmbeddingParams) (chunks : List Chunk) (w : SearchWorld)
    (x : SearchInput) :
  TextJobTurns params (embedTextJob params chunks w x) w
  := by
  unfold embedTextJob
  split
  · exact failTextJob_turns _ _
  · split
    · exact failTextJob_turns _ _
    · exact replaceTextChunks_turns _ _ _ _ _ _

/-- What the caller of a job does when the job has ended: nothing, or it gives back the
slot of the queued job. -/
inductive Finishes (params : EmbeddingParams) : (SearchWorld → SearchWorld) → Prop where
  | called : Finishes params id
  | queued (job : EmbeddingJob) (same : job.params = params) : Finishes params (releaseJob job)

theorem textJobSegment_steps {finish : SearchWorld → SearchWorld} {params : EmbeddingParams}
    (hfinish : Finishes params finish)
    {f : SearchWorld → SearchInput → JobNext × TextJobStep × SearchWorld}
    (hf : ∀ w x, TextJobTurns params (f w x) w) :
  (textJobSegment finish params f).run.Segments (SearchSegment sha256 J)
  := by
  apply searchSegment_steps
  intro w x
  obtain ⟨hturn, hfits⟩ := hf w x
  dsimp only
  split
  · rename_i outcome hnext
    rw [hnext] at hfits
    cases hfinish with
    | called => exact .textJob params hturn
    | queued job hsame =>
        subst hsame
        exact .released job hturn hfits
  · exact .textJob params hturn

theorem indexFileEmbeddings_steps (stripBase64 : Text → Text)
    {finish : SearchWorld → SearchWorld} {params : EmbeddingParams}
    (hfinish : Finishes params finish) :
  (indexFileEmbeddings stripBase64 finish params).run.Segments (SearchSegment sha256 J)
  := by
  apply Fallible.segments_bind
    (textJobSegment_steps hfinish (startTextJob_turns stripBase64 params))
  intro next
  have hrest : (do
      let next ← textJobSegment finish params (chunkTextJob params)
      embedChunks finish params next : SearchOp (Option EmbeddingOutcome)).run.Segments
        (SearchSegment sha256 J) := by
    apply Fallible.segments_bind (textJobSegment_steps hfinish (chunkTextJob_turns params))
    intro next
    cases next with
    | ended outcome => exact Fallible.segments_pure _
    | chunking => exact Fallible.segments_pure _
    | embedding chunks =>
        apply Fallible.segments_bind
          (textJobSegment_steps hfinish (embedTextJob_turns params chunks))
        intro next
        cases next with
        | ended outcome => exact Fallible.segments_pure _
        | chunking => exact Fallible.segments_pure _
        | embedding chunks => exact Fallible.segments_pure _
  cases next with
  | ended outcome => exact Fallible.segments_pure _
  | chunking => exact hrest
  | embedding chunks => exact hrest

theorem embeddingWorker_steps (stripBase64 : Text → Text) :
  (embeddingWorker stripBase64).run.Segments (SearchSegment sha256 J)
  := by
  apply Fallible.segments_bind
  · apply searchSegment_steps
    intro w x
    split
    · exact .idle
    · rename_i job jobs hhead
      exact .dequeued job jobs hhead
  · rintro (_ | job)
    · exact Fallible.segments_pure _
    · apply Fallible.segments_bind
        (indexFileEmbeddings_steps stripBase64 (.queued job rfl))
      exact fun _ => Fallible.segments_pure _

/-! ### The image job -/

theorem startImage_turn (opts : ImageJobOpts) (pdfPageImages : Bool) (row : ImageRow)
    (w : SearchWorld) (x : SearchInput) :
  ImageJobTurn row w (startImage opts pdfPageImages row w x).1
    (startImage opts pdfPageImages row w x).2
  := by
  unfold startImage
  split
  · rename_i hcurrent
    split
    · exact .waiting
    · exact .ineligible hcurrent
  · rename_i hstale
    exact .superseded hstale

theorem failImage_turn (row : ImageRow) (w : SearchWorld) :
  ImageJobTurn row w (failImage row w).1 (failImage row w).2
  := by
  unfold failImage
  split
  · rename_i hcurrent
    exact .failed hcurrent
  · rename_i hstale
    exact .superseded hstale

/-- The rows of the image job are image chunks of its file. -/
theorem ImageRow.chunkRows_kind (row : ImageRow) (parts : List (Option Nat × Bytes))
    {r : ChunkRow × Bytes} (h : r ∈ row.chunkRows parts) :
  r.1.At row.driveId row.path ∧ r.1.kind = .image
  := by
  obtain ⟨i, hi, hr⟩ := List.mem_mapIdx.mp h
  rw [← hr]
  exact ⟨⟨rfl, rfl⟩, rfl⟩

theorem finishImage_turn (row : ImageRow) (w : SearchWorld) (x : SearchInput) :
  ImageJobTurn row w (finishImage row w x).1 (finishImage row w x).2
  := by
  unfold finishImage
  split
  · split
    · exact .stopped
    · exact failImage_turn row w
  · split
    · rename_i hcurrent
      split
      · exact failImage_turn row w
      · rename_i w₁ htx
        exact .replaced hcurrent x.insertFails _ (fun _ => row.chunkRows_kind _) htx
    · rename_i hstale
      exact .superseded hstale

theorem imageJobSegment_steps {row : ImageRow}
    {f : SearchWorld → SearchInput → ImageJobStep × SearchWorld}
    (hf : ∀ w x, ImageJobTurn row w (f w x).1 (f w x).2) :
  (imageJobSegment row f).run.Segments (SearchSegment sha256 J)
  := searchSegment_steps (fun w x => .imageJob row (hf w x))

theorem embedImages_steps (opts : ImageJobOpts) (pdfPageImages : Bool) (rows : List ImageRow) :
  (embedImages opts pdfPageImages rows).run.Segments (SearchSegment sha256 J)
  := by
  induction rows with
  | nil => exact Fallible.segments_pure _
  | cons row rows ih =>
      apply Fallible.segments_bind
        (imageJobSegment_steps (startImage_turn opts pdfPageImages row))
      rintro (_ | _ | _ | _ | _ | _)
      · apply Fallible.segments_bind (imageJobSegment_steps (finishImage_turn row))
        rintro (_ | _ | _ | _ | _ | _)
        all_goals first
          | exact ih
          | exact Fallible.segments_pure _
      all_goals exact ih

theorem imageBatches_steps (opts : ImageJobOpts) (pdfPageImages : Bool) (fuel : Nat)
    (cursor : Text × Text) :
  (imageBatches opts pdfPageImages fuel cursor).run.Segments (SearchSegment sha256 J)
  := by
  induction fuel generalizing cursor with
  | zero => exact Fallible.segments_pure _
  | succ fuel ih =>
      apply Fallible.segments_bind (searchSegment_steps (fun _ _ => .silent))
      intro rows
      split
      · exact Fallible.segments_pure _
      · apply Fallible.segments_bind (embedImages_steps opts pdfPageImages rows)
        intro goesOn
        split
        · exact ih _
        · exact Fallible.segments_pure _

theorem runPendingImageEmbeddings_steps (opts : ImageJobOpts) (fuel : Nat) :
  (runPendingImageEmbeddings opts fuel).run.Segments (SearchSegment sha256 J)
  := by
  unfold runPendingImageEmbeddings
  split
  · apply Fallible.segments_bind canRenderPdfPages_steps
    intro pdfPageImages
    apply Fallible.segments_bind (searchSegment_steps (fun _ _ => .silent))
    intro deferred
    split
    · exact Fallible.segments_pure _
    · exact imageBatches_steps _ _ _ _
  · exact Fallible.segments_pure _

/-! ### The embedding migration -/

theorem migrationTx_steps {f : SearchInput → SearchWorld → SearchWorld}
    (hf : ∀ x w, SearchStep sha256 J x w .embeddingMigration (f x w)) :
  (migrationTx f).run.Segments (SearchSegment sha256 J)
  := by
  apply searchSegment_steps
  intro w x
  split
  · exact .rolledBack
  · exact hf x w

theorem prepareEmbeddingMigration_steps (hJ : J.migrates) (provider : EmbeddingProvider) :
  (prepareEmbeddingMigration provider).run.Segments (SearchSegment sha256 J)
  := by
  apply Fallible.segments_bind
  · apply migrationTx_steps
    intro x w
    split
    · exact .rolledBack
    · exact .resetFormat hJ _
  intro _
  apply Fallible.segments_bind (migrationTx_steps (fun x w => .applySettings hJ _ _))
  intro _
  apply Fallible.segments_bind (migrationTx_steps (fun x w => .retryFailed hJ _))
  intro _
  apply Fallible.segments_bind (migrationTx_steps (fun x w => .backfillPdfs hJ))
  exact fun _ => searchSegment_steps (fun _ _ => .silent)

theorem markFailed_steps (hJ : J.migrates) (row : PendingRow) :
  (markFailed row).run.Segments (SearchSegment sha256 J)
  := by
  apply searchSegment_steps
  intro w x
  dsimp only
  split
  · exact .markedFailed hJ _ _
  · exact .rolledBack

theorem clearPending_steps (row : PendingRow) :
  (clearPending row).run.Segments (SearchSegment sha256 J)
  := by
  apply searchSegment_steps
  intro w x
  unfold clearEmbeddings
  dsimp only
  split
  · rename_i hcurrent
    exact .cleared (row.params [] none) hcurrent
  · rename_i hstale
    exact .textJob (row.params [] none) (.superseded hstale)

/-- A job for a selected file, and what follows when it throws. -/
theorem embedOrMark_steps (hJ : J.migrates) (stripBase64 : Text → Text) (row : PendingRow)
    (content : Text) (pageStarts : Option (List Nat)) :
  (do match ← indexFileEmbeddings stripBase64 id (row.params content pageStarts) with
      | some _ => pure ()
      | none => markFailed row : SearchOp Unit).run.Segments (SearchSegment sha256 J)
  := by
  apply Fallible.segments_bind (indexFileEmbeddings_steps stripBase64 .called)
  rintro (_ | outcome)
  · exact markFailed_steps hJ row
  · exact Fallible.segments_pure _

theorem embedPending_steps (hJ : J.migrates) (stripBase64 : Text → Text)
    (opts : EmbeddingMigrationOpts) (row : PendingRow) :
  (embedPending stripBase64 opts row).run.Segments (SearchSegment sha256 J)
  := by
  apply Fallible.segments_bind (searchSegment_steps (fun _ _ => .silent))
  intro excluded
  split
  · exact embedOrMark_steps hJ stripBase64 row _ _
  · apply Fallible.segments_bind (Fallible.segments_attempt
      (searchFile_steps ⟨row.orgId, row.driveId, [], opts.backend⟩ (getObject_lawful _ _)))
    rintro (_ | object)
    · exact markFailed_steps hJ row
    · apply Fallible.segments_bind (searchSegment_steps (fun _ _ => .silent))
      rintro (_ | ⟨text, pageStarts⟩)
      · exact clearPending_steps row
      · exact embedOrMark_steps hJ stripBase64 row _ _

theorem embedRows_steps (hJ : J.migrates) (stripBase64 : Text → Text)
    (opts : EmbeddingMigrationOpts) (rows : List PendingRow) :
  (embedRows stripBase64 opts rows).run.Segments (SearchSegment sha256 J)
  := by
  induction rows with
  | nil => exact Fallible.segments_pure _
  | cons row rows ih =>
      exact Fallible.segments_bind (embedPending_steps hJ stripBase64 opts row) (fun _ => ih)

theorem runPendingEmbeddings_steps (hJ : J.migrates) (stripBase64 : Text → Text)
    (opts : EmbeddingMigrationOpts) (fuel : Nat) (cursor : Text × Text) :
  (runPendingEmbeddings stripBase64 opts fuel cursor).run.Segments (SearchSegment sha256 J)
  := by
  induction fuel generalizing cursor with
  | zero => exact Fallible.segments_pure _
  | succ fuel ih =>
      apply Fallible.segments_bind (searchSegment_steps (fun _ _ => .silent))
      intro rows
      split
      · exact Fallible.segments_pure _
      · exact Fallible.segments_bind (embedRows_steps hJ stripBase64 opts rows) (fun _ => ih _)

theorem runEmbeddingMigration_steps (hJ : J.migrates) (stripBase64 : Text → Text)
    (opts : EmbeddingMigrationOpts) (fuel : Nat) :
  (runEmbeddingMigration stripBase64 opts fuel).run.Segments (SearchSegment sha256 J)
  := by
  apply Fallible.segments_bind
  · apply Fallible.segments_bind (searchSegment_steps (fun _ _ => .silent))
    intro warm
    split
    · exact prepareEmbeddingMigration_steps hJ _
    · exact Fallible.segments_pure _
  · intro pending
    split
    · exact runPendingEmbeddings_steps hJ _ _ _ _
    · exact Fallible.segments_pure _

/-! ### The migration of the full-text index -/

theorem copySlice_step (opts : FtsMigrationOpts) (row : FtsRow) (rows : List FtsRow)
    (w : SearchWorld) (x : SearchInput) :
  SearchStep sha256 J x w (copySlice opts row rows w x).2.1 (copySlice opts row rows w x).2.2
  := by
  unfold copySlice
  dsimp only
  split
  · exact .silent
  · exact .copiedBatch _ _

theorem copyStep_steps (opts : FtsMigrationOpts) (rows : List FtsRow) (cursor : Nat) :
  (copyStep opts rows cursor).run.Segments (SearchSegment sha256 J)
  := by
  apply searchSegment_steps
  intro w x
  split
  · exact copySlice_step _ _ _ _ _
  · split
    · exact copySlice_step _ _ _ _ _
    · split
      · exact .silent
      · exact .droppedLegacy

theorem copyLegacyRows_steps (opts : FtsMigrationOpts) (fuel : Nat) (rows : List FtsRow)
    (cursor : Nat) :
  (copyLegacyRows opts fuel rows cursor).run.Segments (SearchSegment sha256 J)
  := by
  induction fuel generalizing rows cursor with
  | zero => exact Fallible.segments_pure _
  | succ fuel ih =>
      apply Fallible.segments_bind (copyStep_steps opts rows cursor)
      rintro (_ | ⟨rows, cursor⟩)
      · exact Fallible.segments_pure _
      · exact ih _ _

theorem runFtsMigration_steps (opts : FtsMigrationOpts) (fuel : Nat) :
  (runFtsMigration opts fuel).run.Segments (SearchSegment sha256 J)
  := by
  apply Fallible.segments_bind (searchSegment_steps (fun _ _ => .silent))
  rintro (_ | cursor)
  · exact Fallible.segments_pure _
  · exact copyLegacyRows_steps _ _ _ _

/-! ### Requests -/

theorem answerFile_steps {op : SearchOp Response}
    (h : op.run.Segments (SearchSegment sha256 J)) :
  (answerFile op).run.Segments (SearchSegment sha256 J)
  := Fallible.segments_bind h (fun _ => Fallible.segments_pure _)

theorem runJob_steps {op : SearchOp Unit} (h : op.run.Segments (SearchSegment sha256 J)) :
  (runJob op).run.Segments (SearchSegment sha256 J)
  := Fallible.segments_bind h (fun _ => Fallible.segments_pure _)

/-- Every segment of a permitted request does one of the steps. -/
theorem SearchRequest.program_steps (stripBase64 : Text → Text) {request : SearchRequest}
    (h : request.Permitted J) :
  (request.program sha256 stripBase64).run.Segments (SearchSegment sha256 J)
  := by
  cases request with
  | write ctx params =>
      exact answerFile_steps (searchWriteInternal_steps (h.operates _ rfl) _ _ _)
  | writeRaw limit ctx params =>
      exact answerFile_steps (searchWriteInternal_steps (h.operates _ rfl) _ _ _)
  | edit ctx params => exact answerFile_steps (searchEdit_steps (h.operates _ rfl) _)
  | append ctx params => exact answerFile_steps (searchAppend_steps (h.operates _ rfl) _)
  | revert ctx params => exact answerFile_steps (searchRevert_steps (h.operates _ rfl) _)
  | cp ctx params => exact answerFile_steps (searchCp_steps (h.operates _ rfl) _)
  | mv ctx params => exact answerFile_steps (searchMv_steps (h.operates _ rfl) _)
  | rm ctx params => exact answerFile_steps (searchRm_steps _ _)
  | embeddingWorker => exact runJob_steps (embeddingWorker_steps _)
  | runPendingImageEmbeddings opts fuel => exact runJob_steps (runPendingImageEmbeddings_steps _ _)
  | runEmbeddingMigration opts fuel =>
      exact runJob_steps (runEmbeddingMigration_steps (h.migrates _ _ rfl) _ _ _)
  | runFtsMigration opts fuel => exact runJob_steps (runFtsMigration_steps _ _)

/-- Every step of every run of the search system is one of the steps. -/
theorem searchPool_steps (stripBase64 : Text → Text) (w : SearchWorld)
    {requests : List SearchRequest} (h : ∀ r ∈ requests, r.Permitted J)
    (sched : List (Nat × SearchInput)) :
  (searchPool sha256 stripBase64 w requests).Admits
    (fun cf _ r => SearchLawful sha256 J cf.state r) sched
  := by
  apply Pool.admits_of_always
  intro p hp
  obtain ⟨r, hr, rfl⟩ := List.mem_map.mp hp
  exact (SearchRequest.program_steps stripBase64 (h r hr)).mono (fun _ hf w x => ⟨x, hf w x⟩)

end

/-- A system that may run anything. -/
def SearchPerms.all : SearchPerms := ⟨fun _ => True, True⟩

theorem SearchRequest.permitted_all (request : SearchRequest) :
  request.Permitted .all
  := ⟨fun _ _ => trivial, fun _ _ _ => trivial⟩

end AgentFs

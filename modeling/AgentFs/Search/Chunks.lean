import AgentFs.Lib.Paired
import AgentFs.Search.Law

/-!
# Chunks and vectors

No foreign key connects `chunk_vectors` to `content_chunks`.  In every run of the search system
the two tables are paired all the same: each chunk has one vector and each vector one chunk.
-/

namespace AgentFs

open Async Tabular

/-- The chunks and vectors correspond by the ids of the chunks, which the AUTOINCREMENT
counter bounds. -/
structure IndexTables.ChunksPaired (t : IndexTables) : Prop where
  paired : Paired ChunkRow.id VectorRow.chunkId t.contentChunks t.chunkVectors
  bounded : ∀ c ∈ t.contentChunks, c.id ≤ t.chunkSeq

theorem IndexTables.chunksPaired_empty :
  IndexTables.empty.ChunksPaired
  := ⟨Paired.nil, fun _ hc => absurd hc List.not_mem_nil⟩

/-! ### Statements on the chunks -/

theorem IndexTables.ChunksPaired.deleteChunksWhere {t : IndexTables} (h : t.ChunksPaired)
    (p : ChunkRow → Prop) [DecidablePred p] :
  (t.deleteChunksWhere p).ChunksPaired
  := by
  constructor
  · have hdelete := h.paired.delete (fun c => decide (p c))
    simp only [← decide_not] at hdelete
    exact hdelete
  · intro c hc
    exact h.bounded c (List.mem_of_mem_filter hc)

theorem IndexTables.ChunksPaired.insertChunk {t : IndexTables} (h : t.ChunksPaired)
    (row : ChunkRow) (vector : Bytes) :
  (t.insertChunk row vector).ChunksPaired
  := by
  constructor
  · apply h.paired.insert _ rfl
    intro c hc
    have hle := h.bounded c hc
    dsimp only
    omega
  · intro c hc
    obtain hc | hc := List.mem_append.mp hc
    · have hle := h.bounded c hc
      dsimp only [IndexTables.insertChunk]
      omega
    · obtain rfl := List.mem_singleton.mp hc
      exact le_refl _

theorem IndexTables.ChunksPaired.insertChunks {fails : Nat → Bool} {n : Nat}
    {rows : List (ChunkRow × Bytes)} {t t' : IndexTables} (h : t.ChunksPaired)
    (hins : AgentFs.insertChunks fails n rows t = some t') :
  t'.ChunksPaired
  := by
  induction rows generalizing n t with
  | nil =>
      cases hins
      exact h
  | cons row rows ih =>
      unfold AgentFs.insertChunks at hins
      split at hins
      · cases hins
      · exact ih (h.insertChunk row.1 row.2) hins

/-- The chunks and vectors of a world are paired. -/
abbrev SearchWorld.ChunksPaired (w : SearchWorld) : Prop :=
  w.index.toIndexTables.ChunksPaired

/-- What leaves the chunks and vectors keeps the pairing. -/
theorem SearchWorld.ChunksPaired.of_frame {w w' : SearchWorld} (h : w.ChunksPaired)
    (hchunks : w'.index.contentChunks = w.index.contentChunks)
    (hvectors : w'.index.chunkVectors = w.index.chunkVectors)
    (hseq : w'.index.chunkSeq = w.index.chunkSeq) :
  w'.ChunksPaired
  := by
  constructor
  · rw [hchunks, hvectors]
    exact h.paired
  · rw [hchunks, hseq]
    exact h.bounded

section

variable {w : SearchWorld}

theorem setTextStatus_chunksPaired (h : w.ChunksPaired) (driveId path : Text)
    (status : Option EmbeddingStatus) :
  (setTextStatus driveId path status w).ChunksPaired
  := by
  unfold setTextStatus
  split
  · exact h
  · exact h.of_frame rfl rfl rfl

theorem setImageStatus_chunksPaired (h : w.ChunksPaired) (driveId path : Text)
    (status : Option ImageEmbeddingStatus) :
  (setImageStatus driveId path status w).ChunksPaired
  := by
  unfold setImageStatus
  split
  · exact h
  · exact h.of_frame rfl rfl rfl

theorem deleteChunks_chunksPaired (h : w.ChunksPaired) (driveId path : Text)
    (kind : ChunkDeleteScope) :
  (deleteChunks driveId path kind w).ChunksPaired
  := h.deleteChunksWhere _

theorem clearStatuses_chunksPaired (h : w.ChunksPaired) (driveId path : Text)
    (kind : ChunkDeleteScope) :
  (clearStatuses driveId path kind w).ChunksPaired
  := by
  cases kind with
  | text => exact setTextStatus_chunksPaired h _ _ _
  | image => exact setImageStatus_chunksPaired h _ _ _
  | all => exact setImageStatus_chunksPaired (setTextStatus_chunksPaired h _ _ _) _ _ _

theorem indexFile_chunksPaired (h : w.ChunksPaired) (driveId path content : Text) :
  (indexFile driveId path content w).ChunksPaired
  := h.of_frame rfl rfl rfl

theorem clearSearchData_chunksPaired (h : w.ChunksPaired) (driveId path : Text)
    (kind : ChunkDeleteScope) :
  (clearSearchData driveId path kind w).ChunksPaired
  := by
  apply clearStatuses_chunksPaired
  apply deleteChunks_chunksPaired
  split
  · exact h.of_frame rfl rfl rfl
  · exact h

theorem scheduleEmbedding_chunksPaired (h : w.ChunksPaired) (provider : Option EmbeddingProvider)
    (driveId path content : Text) (pageStarts : Option (List Nat)) :
  (scheduleEmbedding provider driveId path content pageStarts w).ChunksPaired
  := by
  have hpending := setTextStatus_chunksPaired h driveId path (some .pending)
  unfold scheduleEmbedding
  split
  · exact h
  · dsimp only
    split
    · exact hpending
    · exact hpending.of_frame rfl rfl rfl

theorem indexText_chunksPaired (h : w.ChunksPaired) (ctx : SearchContext) (path content : Text)
    (pageStarts : Option (List Nat)) (pdfPageImages : Bool) (excludeDrives : List Text) :
  (indexText ctx path content pageStarts pdfPageImages excludeDrives w).ChunksPaired
  := by
  apply scheduleEmbedding_chunksPaired
  apply indexFile_chunksPaired
  split
  · exact h
  · exact clearSearchData_chunksPaired h _ _ _

theorem indexImage_chunksPaired (h : w.ChunksPaired) (ctx : SearchContext)
    (path contentType : Text) (pdfPageImages : Bool) (excludeDrives : List Text) :
  (indexImage ctx path contentType pdfPageImages excludeDrives w).ChunksPaired
  := by
  have hclear := clearSearchData_chunksPaired h ctx.driveId path .image
  unfold indexImage
  dsimp only
  split
  · exact setImageStatus_chunksPaired hclear _ _ _
  · exact hclear

/-- A move renames chunks and keeps their ids. -/
theorem moveChunks_chunksPaired (h : w.ChunksPaired) (driveId source target : Text) :
  (moveChunks driveId source target w).ChunksPaired
  := by
  constructor
  · exact h.paired.update (fun _ => rfl)
  · intro c hc
    obtain ⟨s, hs, -, rfl⟩ | ⟨hc, -⟩ := mem_update.mp hc
    · exact h.bounded s hs
    · exact h.bounded c hc

theorem moveIndex_chunksPaired (h : w.ChunksPaired) (driveId source target : Text)
    (src : MoveSource) (content : Option Text) (moves : Bool)
    (status : Option EmbeddingStatus) :
  (moveIndex driveId source target src content moves status w).ChunksPaired
  := by
  have hclear : (if src.preserveImages then clearSearchData driveId target .all w
      else clearSearchData driveId source .image
        (clearSearchData driveId target .all w)).ChunksPaired := by
    split
    · exact clearSearchData_chunksPaired h _ _ _
    · exact clearSearchData_chunksPaired (clearSearchData_chunksPaired h _ _ _) _ _ _
  unfold moveIndex
  apply setTextStatus_chunksPaired
  apply setImageStatus_chunksPaired
  cases content with
  | none =>
      dsimp only
      split
      · exact moveChunks_chunksPaired hclear _ _ _
      · exact clearSearchData_chunksPaired hclear _ _ _
  | some content =>
      dsimp only
      have hindex := indexFile_chunksPaired hclear driveId target content
      split
      · exact moveChunks_chunksPaired hindex _ _ _
      · exact clearSearchData_chunksPaired hindex _ _ _

/-- A transaction that replaces the chunks of a file keeps the pairing when it commits. -/
theorem replaceChunks_chunksPaired {w' : SearchWorld} (h : w.ChunksPaired) {driveId path : Text}
    {kind : ChunkDeleteScope} {fails : Nat → Bool} {rows : List (ChunkRow × Bytes)}
    (htx : replaceChunks driveId path kind fails rows w = some w') :
  w'.ChunksPaired
  := by
  unfold replaceChunks at htx
  dsimp only at htx
  split at htx
  · cases htx
  · obtain ⟨t, hins, rfl⟩ := Option.map_eq_some_iff.mp htx
    exact (deleteChunks_chunksPaired h driveId path kind).insertChunks hins

/-! ### Jobs -/

theorem TextJobTurn.chunksPaired {params : EmbeddingParams} {step : TextJobStep}
    {w' : SearchWorld} (turn : TextJobTurn params w step w') (h : w.ChunksPaired) :
  w'.ChunksPaired
  := by
  cases turn with
  | waiting => exact h
  | superseded stale => exact h
  | failed current => exact setTextStatus_chunksPaired h _ _ _
  | replaced current fails rows status kind settled tx =>
      apply setTextStatus_chunksPaired
      apply replaceChunks_chunksPaired _ tx
      split
      · exact indexFile_chunksPaired h _ _ _
      · exact h

theorem ImageJobTurn.chunksPaired {row : ImageRow} {step : ImageJobStep} {w' : SearchWorld}
    (turn : ImageJobTurn row w step w') (h : w.ChunksPaired) :
  w'.ChunksPaired
  := by
  cases turn with
  | waiting => exact h
  | superseded stale => exact h
  | stopped => exact h
  | ineligible current => exact setImageStatus_chunksPaired h _ _ _
  | failed current => exact setImageStatus_chunksPaired h _ _ _
  | replaced current fails rows kind tx =>
      exact setImageStatus_chunksPaired (replaceChunks_chunksPaired h tx) _ _ _

/-! ### The migrations -/

theorem resetFormat_chunksPaired (h : w.ChunksPaired) (format : Text) :
  (resetFormat format w).ChunksPaired
  := by
  have hpending : (markPending (fun _ s => s = some .indexed ∨ s = some .skipped) w).ChunksPaired :=
    h.of_frame rfl rfl rfl
  exact hpending.deleteChunksWhere _

theorem applySettings_chunksPaired (h : w.ChunksPaired) (maxBytes : Option Nat)
    (excludeDrives : List Text) :
  (applySettings maxBytes excludeDrives w).ChunksPaired
  := by
  have hresized : (if w.metaRows.embeddingMaxBytes.getD none ≠ maxBytes then
      markPending (resizes maxBytes excludeDrives w) w else w).ChunksPaired := by
    split
    · exact h.of_frame rfl rfl rfl
    · exact h
  unfold applySettings
  dsimp only
  split
  · exact hresized.deleteChunksWhere _
  · exact hresized

theorem retryFailed_chunksPaired (h : w.ChunksPaired) (format : Text) :
  (retryFailed format w).ChunksPaired
  := by
  unfold retryFailed
  dsimp only
  split
  · exact h
  · exact h.of_frame rfl rfl rfl

theorem copyBatch_chunksPaired (h : w.ChunksPaired) (rows : List FtsRow) (cursor : Nat) :
  (copyBatch rows cursor w).ChunksPaired
  := by
  have hrows : (rows.foldl (fun w row => copyRow row w) w).ChunksPaired := by
    induction rows generalizing w with
    | nil => exact h
    | cons row rows ih =>
        apply ih
        show (copyRow row w).ChunksPaired
        unfold copyRow
        split
        · exact h
        · exact h.of_frame rfl rfl rfl
  exact hrows.of_frame rfl rfl rfl

end

/-! ### Runs -/

section

variable {sha256 : Bytes → Text} {J : SearchPerms}

/-- Every step of the search system keeps the pairing. -/
theorem SearchStep.chunksPaired {x : SearchInput} {w w' : SearchWorld} {ev : SearchEvent}
    (step : SearchStep sha256 J x w ev w') (h : w.ChunksPaired) :
  w'.ChunksPaired
  := by
  cases step with
  | silent => exact h
  | file ctx lawful => exact h
  | readVersion driveId path => exact h
  | superseded ctx known path version stale => exact h
  | indexedText ctx known path content pageStarts pdfPageImages =>
      exact indexText_chunksPaired h _ _ _ _ _ _
  | indexedImage ctx path contentType pdfPageImages => exact indexImage_chunksPaired h _ _ _ _ _
  | clearedText ctx path contentType pdfPageImages =>
      exact clearSearchData_chunksPaired (indexImage_chunksPaired h _ _ _ _ _) _ _ _
  | removed driveId path => exact clearSearchData_chunksPaired h _ _ _
  | removedSource driveId path => exact h.of_frame rfl rfl rfl
  | moved ctx known source target turn =>
      cases turn with
      | moved targetVersion src content moves status current =>
          exact moveIndex_chunksPaired h _ _ _ _ _ _ _
      | superseded targetVersion stale => exact clearSearchData_chunksPaired h _ _ _
  | idle => exact h
  | dequeued job jobs head => exact h
  | textJob params turn => exact turn.chunksPaired h
  | released job turn ends => exact turn.chunksPaired h
  | cleared params current =>
      exact clearStatuses_chunksPaired (deleteChunks_chunksPaired h _ _ _) _ _ _
  | imageJob row turn => exact turn.chunksPaired h
  | rolledBack => exact h
  | resetFormat known format => exact resetFormat_chunksPaired h _
  | applySettings known maxBytes excludeDrives => exact applySettings_chunksPaired h _ _
  | retryFailed known format => exact retryFailed_chunksPaired h _
  | backfillPdfs known => exact h.of_frame rfl rfl rfl
  | markedFailed known driveId path => exact setTextStatus_chunksPaired h _ _ _
  | copiedBatch rows cursor => exact copyBatch_chunksPaired h _ _
  | droppedLegacy => exact h.of_frame rfl rfl rfl

variable (sha256)

/-- Whatever runs, the chunks and vectors are paired in every state of the run. -/
theorem searchPool_chunksPaired (stripBase64 : Text → Text) (w : SearchWorld)
    (requests : List SearchRequest) (sched : List (Nat × SearchInput)) (h : w.ChunksPaired) :
  ((searchPool sha256 stripBase64 w requests).run sched).conf.state.ChunksPaired
  := by
  have hlaw : (searchPool sha256 stripBase64 w requests).Admits
      (fun cf _ r => SearchLawful sha256 .all cf.state r) sched :=
    searchPool_steps stripBase64 w (fun r _ => r.permitted_all) sched
  have hstep : ∀ (cf : Conf SearchWorld SearchEvent) (i : Nat) (r : SearchEvent × SearchWorld),
      SearchLawful sha256 .all cf.state r → cf.state.ChunksPaired →
        (cf.push i r).state.ChunksPaired := by
    rintro cf i r ⟨x, hx⟩ hpaired
    exact hx.chunksPaired hpaired
  exact (hlaw.inv (I := fun cf => cf.state.ChunksPaired) hstep h).2

/-- In every state of every run the ids of the chunks are the ids of the vectors, and no two
chunks and no two vectors have the same id. -/
theorem chunkIds_eq_vectorIds (stripBase64 : Text → Text) (w : SearchWorld)
    (requests : List SearchRequest) (sched : List (Nat × SearchInput)) (h : w.ChunksPaired) :
  let t := ((searchPool sha256 stripBase64 w requests).run sched).conf.state.index
  (∀ id, id ∈ t.contentChunks.map ChunkRow.id ↔ id ∈ t.chunkVectors.map VectorRow.chunkId) ∧
    (∀ c ∈ t.contentChunks, ∃! v, v ∈ t.chunkVectors ∧ v.chunkId = c.id) ∧
    ∀ v ∈ t.chunkVectors, ∃! c, c ∈ t.contentChunks ∧ c.id = v.chunkId
  := by
  have hpaired := (searchPool_chunksPaired sha256 stripBase64 w requests sched h).paired
  exact ⟨hpaired.same, fun _ hc => hpaired.existsUnique hc,
    fun _ hv => hpaired.symm.existsUnique hv⟩

end

/-- A file is written and its job embeds it: there is one chunk, with its vector. -/
theorem chunkIds_eq_vectorIds_sample :
  let t := (sampleSearch [sampleSearchWrite "/f" "a", .embeddingWorker]
    [0, 0, 0, 0, 0, 0, 0, 1, 1, 1, 1]).conf.state.index
  t.contentChunks.map ChunkRow.id = [1] ∧
    (∀ id, id ∈ t.contentChunks.map ChunkRow.id ↔ id ∈ t.chunkVectors.map VectorRow.chunkId) ∧
    (∀ c ∈ t.contentChunks, ∃! v, v ∈ t.chunkVectors ∧ v.chunkId = c.id) ∧
    ∀ v ∈ t.chunkVectors, ∃! c, c ∈ t.contentChunks ∧ c.id = v.chunkId
  := ⟨by decide +kernel,
    chunkIds_eq_vectorIds sampleHash id .empty _ _ IndexTables.chunksPaired_empty⟩

end AgentFs

import AgentFs.Search.Law

/-!
# The order of indexing

An indexing step that finds another version than the one it began with comes after a read of
that version by the same program, and the program has recorded no version of the path in
between.
-/

namespace AgentFs

open Async

/-- The event records a version of the path. -/
def SearchEvent.CommitsTo (driveId path : Text) : SearchEvent → Prop
  | .file (.commit row) => row.driveId = driveId ∧ row.path = path
  | _ => False

instance SearchEvent.decidableCommitsTo (driveId path : Text) (ev : SearchEvent) :
    Decidable (ev.CommitsTo driveId path) :=
  match ev with
  | .file (.commit _) => inferInstanceAs (Decidable (_ ∧ _))
  | .file .silent | .file .fault | .file (.probe ..) | .file (.readObject ..)
  | .file (.readVersion ..) | .file (.storeBlob ..) | .file (.storeObject ..)
  | .file (.removeObject ..) | .file (.checkVersion ..) | .file (.readHead ..)
  | .file (.readRow ..) | .file (.allocate ..) | .file (.abort ..)
  | .silent | .readVersion .. | .superseded .. | .indexedText .. | .indexedImage ..
  | .clearedText .. | .removed .. | .removedSource .. | .moved .. | .dequeued ..
  | .textJob .. | .imageJob .. | .embeddingMigration | .copiedBatch .. | .droppedLegacy =>
      isFalse id

theorem not_commitsTo_file {driveId path : Text} {ev : Event}
    (h : ∀ row, ev = .commit row → ¬ (row.driveId = driveId ∧ row.path = path)) :
  ¬ (SearchEvent.file ev).CommitsTo driveId path
  := by
  cases ev with
  | commit row => exact h row rfl
  | _ => exact not_false

/-- The event reads the current version of the path. -/
def SearchEvent.Reads (driveId path : Text) (version : Option (Option Text)) :
    SearchEvent → Prop
  | .readVersion d p v => d = driveId ∧ p = path ∧ v = version
  | .indexedImage d p v => d = driveId ∧ p = path ∧ v = version
  | _ => False

/-- Since it last recorded a version of the path, a program has read `version`. -/
def HasRead (driveId path : Text) (version : Option (Option Text)) (h : List SearchEvent) :
    Prop :=
  ∃ ev ∈ h.takeWhile (fun ev => ¬ ev.CommitsTo driveId path), ev.Reads driveId path version

/-- An indexing step is superseded only after its program has read the version. -/
def ReadsFirst : Rule SearchEvent := fun h ev =>
  match ev with
  | .superseded driveId path version => HasRead driveId path version h
  | .moved driveId _ target (.superseded version) => HasRead driveId target version h
  | _ => True

section

variable {driveId path : Text} {version : Option (Option Text)} {h : List SearchEvent}

theorem HasRead.cons {ev : SearchEvent} (hev : ¬ ev.CommitsTo driveId path)
    (hread : HasRead driveId path version h) :
  HasRead driveId path version (ev :: h)
  := by
  obtain ⟨ev', hmem, hreads⟩ := hread
  refine ⟨ev', ?_, hreads⟩
  rw [List.takeWhile_cons_of_pos (by simpa using hev)]
  exact List.mem_cons_of_mem _ hmem

theorem HasRead.append {n : List SearchEvent} (hn : ∀ ev ∈ n, ¬ ev.CommitsTo driveId path)
    (hread : HasRead driveId path version h) :
  HasRead driveId path version (n ++ h)
  := by
  induction n with
  | nil => exact hread
  | cons ev n ih =>
      have hrest := ih (fun ev' hev' => hn ev' (List.mem_cons_of_mem _ hev'))
      exact hrest.cons (hn ev List.mem_cons_self)

/-- A program has read what it reads now. -/
theorem hasRead_of_reads {ev : SearchEvent} (hreads : ev.Reads driveId path version)
    (hev : ¬ ev.CommitsTo driveId path) :
  HasRead driveId path version (ev :: h)
  := by
  refine ⟨ev, ?_, hreads⟩
  rw [List.takeWhile_cons_of_pos (by simpa using hev)]
  exact List.mem_cons_self

end

/-! ### Parts of operations -/

/-- The part of a program orders its events, from every history and whatever comes next. -/
abbrev Orderly {α : Type} (x : SearchOp α) : Prop :=
  ∀ h, x.Follows ReadsFirst (fun _ _ => True) (fun _ _ => True) h

section

variable {α β : Type} {h : List SearchEvent}

theorem orderly_pure (a : α) :
  Orderly (pure a)
  := fun _ => Fallible.Follows.pure trivial

theorem orderly_throw (e : OpError) :
  Orderly (throw e : SearchOp α)
  := fun _ => Fallible.Follows.throw trivial

theorem Orderly.bind {x : SearchOp α} {g : α → SearchOp β} (hx : Orderly x)
    (hg : ∀ a, Orderly (g a)) :
  Orderly (x >>= g)
  := fun h => Fallible.Follows.bind
    ((hx h).mono (fun h' a _ => hg a h') (fun _ _ _ => trivial))

/-- A segment whose event is never that of a superseded step. -/
theorem orderly_segment
    {f : SearchWorld → SearchInput → Except OpError α × SearchEvent × SearchWorld}
    (hf : ∀ w x h, ReadsFirst h (f w x).2.1) :
  Orderly (searchSegment f)
  := by
  intro h
  apply Fallible.Follows.atomic
  intro w x
  refine ⟨hf w x h, ?_⟩
  split <;> trivial

/-- A step that belongs to no file operation is never superseded. -/
theorem SearchStep.readsFirst {sha256 : Bytes → Text} {J : SearchPerms}
    (hJ : ∀ ctx, ¬ J.operates ctx) {x : SearchInput} {w w' : SearchWorld} {ev : SearchEvent}
    (step : SearchStep sha256 J x w ev w') (h : List SearchEvent) :
  ReadsFirst h ev
  := by
  cases step with
  | superseded ctx known => exact absurd known (hJ ctx)
  | moved ctx known => exact absurd known (hJ ctx)
  | _ => trivial

/-- A program whose steps belong to no file operation is orderly. -/
theorem orderly_of_steps {sha256 : Bytes → Text} {J : SearchPerms}
    (hJ : ∀ ctx, ¬ J.operates ctx) {x : SearchOp α}
    (hx : x.run.Segments (SearchSegment sha256 J)) :
  Orderly x
  := by
  intro h
  have hquiet : x.run.Always (fun _ r => ∀ h, ReadsFirst h r.1) := by
    apply hx.mono
    exact fun f hf w c h => (hf w c).readsFirst hJ h
  apply Prog.Follows.mono _
    (hquiet.follows (P := fun ev => ∀ h, ReadsFirst h ev) (fun _ _ hr => hr)
      (fun h ev hev => hev h) h)
  intro h' r _
  cases r <;> trivial

theorem searchFile_orderly (op : Op α) :
  Orderly (searchFile op)
  := by
  intro h
  have hfile : (searchFile op).run.Always (fun _ r => ∀ h, ReadsFirst h r.1) := by
    apply Prog.Segments.embed (S := fun _ => True) (fun f _ w c h => trivial)
    exact op.run.segments_true
  apply Prog.Follows.mono _
    (hfile.follows (P := fun ev => ∀ h, ReadsFirst h ev) (fun _ _ hr => hr)
      (fun h ev hev => hev h) h)
  intro h' r _
  cases r <;> trivial

/-! ### Indexing -/

theorem canRenderPdfPages_orderly :
  Orderly canRenderPdfPages
  := orderly_segment (fun _ _ _ => trivial)

theorem readMoveSource_orderly (ctx : SearchContext) (source contentType : Text)
    (pdfPageImages : Bool) :
  Orderly (readMoveSource ctx source contentType pdfPageImages)
  := orderly_segment (fun _ _ _ => trivial)

theorem removeIndex_orderly (ctx : SearchContext) (path : Text) :
  Orderly (removeIndex ctx path)
  := orderly_segment (fun _ _ _ => trivial)

theorem readVersion_follows {ctx : SearchContext} {path : Text}
    {Q : List SearchEvent → Option (Option Text) → Prop}
    (hQ : ∀ version h', HasRead ctx.driveId path version h' → Q h' version) :
  (readVersion ctx path).Follows ReadsFirst Q (fun _ _ => True) h
  := by
  apply Fallible.Follows.atomic
  intro w x
  refine ⟨trivial, ?_⟩
  exact hQ _ _ (hasRead_of_reads ⟨rfl, rfl, rfl⟩ not_false)

theorem indexTextSince_follows {ctx : SearchContext} {path content : Text}
    {pageStarts : Option (List Nat)} {version : Option (Option Text)}
    (hread : HasRead ctx.driveId path version h) :
  (indexTextSince ctx path content pageStarts version).Follows ReadsFirst
    (fun _ _ => True) (fun _ _ => True) h
  := by
  apply Fallible.Follows.atomic
  intro w x
  split
  · exact ⟨hread, trivial⟩
  · exact ⟨trivial, trivial⟩

theorem indexTextForSearch_orderly (ctx : SearchContext) (path content : Text)
    (pageStarts : Option (List Nat)) :
  Orderly (indexTextForSearch ctx path content pageStarts)
  := fun _ => Fallible.Follows.bind (readVersion_follows
    (fun _ _ hread => indexTextSince_follows hread))

theorem indexBytesForSearch_orderly (ctx : SearchContext) (path contentType : Text)
    (bytes : Bytes) :
  Orderly (indexBytesForSearch ctx path contentType bytes)
  := by
  intro h
  apply Fallible.Follows.bind
  apply readVersion_follows
  intro version h' hread
  apply Fallible.Follows.bind
  apply Fallible.Follows.atomic
  intro w x
  refine ⟨trivial, ?_⟩
  apply Fallible.Follows.bind
  apply Fallible.Follows.atomic
  intro w' x'
  split
  · exact ⟨hread.cons not_false, Fallible.Follows.pure trivial⟩
  · dsimp only
    split
    · exact ⟨trivial, Fallible.Follows.pure trivial⟩
    · refine ⟨trivial, ?_⟩
      exact indexTextSince_follows (hasRead_of_reads ⟨rfl, rfl, rfl⟩ not_false)

/-! ### Moves -/

/-- A segment of a file operation that records only versions of the path. -/
def CommitsOnly (driveId path : Text) (f : World → Input → Event × World) : Prop :=
  ∀ w x row, (f w x).1 = .commit row → row.driveId = driveId ∧ row.path = path

theorem deleteVersion_commits (ctx : OpContext) (path : Text) (message : Option Text) :
  (deleteVersion ctx path message).run.Segments (CommitsOnly ctx.driveId path)
  := by
  apply Fallible.segments_bind
  · apply Fallible.segments_bind
    · unfold assertKeyInsideDrive
      split
      · exact Fallible.segments_pure _
      · split
        · exact Fallible.segments_throw _
        · exact Fallible.segments_throw _
    · intro _
      apply Fallible.segments_atomic
      intro w x row hrow
      dsimp only at hrow
      split at hrow <;> cases hrow
  · intro _
    apply Fallible.segments_bind
    · apply Fallible.segments_bind
      · apply Fallible.segments_atomic
        intro w x row hrow
        cases hrow
      · intro version
        apply Fallible.segments_bind
        · apply Fallible.segments_atomic
          intro w x row hrow
          dsimp only at hrow
          split at hrow
          · cases hrow
            exact ⟨rfl, rfl⟩
          · cases hrow
        · exact fun _ => Fallible.segments_pure _
    · exact fun _ => Fallible.segments_pure _

/-- Deleting a path leaves what has been read of another. -/
theorem deleteVersion_follows_read {ctx : SearchContext} {path target : Text}
    {message : Option Text} {version : Option (Option Text)} (hne : path ≠ target)
    {Q : List SearchEvent → Unit → Prop}
    (hread : HasRead ctx.driveId target version h)
    (hQ : ∀ h', HasRead ctx.driveId target version h' → Q h' ()) :
  (searchFile (deleteVersion ctx.toOpContext path message)).Follows ReadsFirst Q
    (fun _ _ => True) h
  := by
  have hother : (searchFile (deleteVersion ctx.toOpContext path message)).run.Always
      (fun _ r => (∀ h, ReadsFirst h r.1) ∧ ¬ r.1.CommitsTo ctx.driveId target) := by
    apply Prog.Segments.embed _ (deleteVersion_commits ctx.toOpContext path message)
    intro f hf w c
    refine ⟨fun _ => trivial, ?_⟩
    apply not_commitsTo_file
    intro row hrow hcommits
    exact hne ((hf w.world c.toInput row hrow).2.symm.trans hcommits.2)
  apply Prog.Follows.mono _
    (hother.follows
      (P := fun ev => (∀ h, ReadsFirst h ev) ∧ ¬ ev.CommitsTo ctx.driveId target)
      (fun _ _ hr => hr) (fun h ev hev => hev.1 h) h)
  rintro h' (e | ⟨⟩) ⟨n, rfl, hn⟩
  · trivial
  · exact hQ _ (hread.append (fun ev hev => (hn ev hev).2))

end

/-! ### Operations -/

section

variable {sha256 : Bytes → Text}

theorem searchWriteInternal_orderly (ctx : SearchContext) (params : WriteRawParams)
    (opts : WriteOpts) (indexable : Indexable) :
  Orderly (searchWriteInternal sha256 ctx params opts indexable)
  := by
  unfold searchWriteInternal
  dsimp only
  split
  · exact orderly_throw _
  · apply (searchFile_orderly _).bind
    rintro (_ | current)
    · apply (searchFile_orderly _).bind
      intro version
      cases indexable with
      | text content =>
          exact (indexTextForSearch_orderly _ _ _ _).bind (fun _ => orderly_pure _)
      | bytes => exact (indexBytesForSearch_orderly _ _ _ _).bind (fun _ => orderly_pure _)
    · exact orderly_pure _

theorem searchEdit_orderly (ctx : SearchContext) (params : EditParams) :
  Orderly (searchEdit sha256 ctx params)
  := by
  apply (searchFile_orderly _).bind
  intro _
  apply (searchFile_orderly _).bind
  intro object
  dsimp only
  split
  · exact orderly_throw _
  · split
    · exact orderly_throw _
    · apply (searchFile_orderly _).bind
      intro version
      exact (indexTextForSearch_orderly _ _ _ _).bind (fun _ => orderly_pure _)

theorem searchAppend_orderly (ctx : SearchContext) (params : AppendParams) :
  Orderly (searchAppend sha256 ctx params)
  := by
  apply (searchFile_orderly _).bind
  intro _
  apply (searchFile_orderly _).bind
  intro object
  apply (searchFile_orderly _).bind
  intro version
  exact (indexTextForSearch_orderly _ _ _ _).bind (fun _ => orderly_pure _)

theorem searchRevert_orderly (ctx : SearchContext) (params : RevertParams) :
  Orderly (searchRevert sha256 ctx params)
  := by
  unfold searchRevert
  dsimp only
  split
  · exact orderly_throw _
  · apply (searchFile_orderly _).bind
    intro _
    apply (searchFile_orderly _).bind
    intro targetVersion
    split
    · exact orderly_throw _
    · apply (searchFile_orderly _).bind
      intro oldContent
      apply (searchFile_orderly _).bind
      intro version
      exact (indexBytesForSearch_orderly _ _ _ _).bind (fun _ => orderly_pure _)

theorem searchCp_orderly (ctx : SearchContext) (params : CpParams) :
  Orderly (searchCp sha256 ctx params)
  := by
  unfold searchCp
  dsimp only
  split
  · exact orderly_throw _
  · apply (searchFile_orderly _).bind
    intro _
    apply (searchFile_orderly _).bind
    intro copyResult
    apply (searchFile_orderly _).bind
    intro head
    apply (searchFile_orderly _).bind
    intro obj
    apply (searchFile_orderly _).bind
    intro version
    exact (indexBytesForSearch_orderly _ _ _ _).bind (fun _ => orderly_pure _)

/-- The last segments of a move, from the read of the version of the target on. -/
theorem finishMove_orderly (ctx : SearchContext) {source target : Text} (hne : source ≠ target)
    (contentType : Text) (bytes : Bytes) (src : MoveSource) (message : Option Text)
    (answer : Response) :
  Orderly (do
    let targetVersion ← readVersion ctx target
    searchFile (deleteVersion ctx.toOpContext source message)
    removeMoveSource ctx source
    finishMove ctx source target contentType bytes src targetVersion
    pure answer)
  := by
  intro h
  apply Fallible.Follows.bind
  apply readVersion_follows
  intro version h' hread
  apply Fallible.Follows.bind
  apply deleteVersion_follows_read hne hread
  intro h'' hread
  apply Fallible.Follows.bind
  apply Fallible.Follows.atomic
  intro w x
  refine ⟨trivial, ?_⟩
  apply Fallible.Follows.bind
  apply Fallible.Follows.atomic
  intro w' x'
  dsimp only
  split
  · exact ⟨trivial, Fallible.Follows.pure trivial⟩
  · exact ⟨hread.cons not_false, Fallible.Follows.pure trivial⟩

theorem searchMv_orderly (ctx : SearchContext) (params : MvParams) :
  Orderly (searchMv sha256 ctx params)
  := by
  unfold searchMv
  dsimp only
  split
  · exact orderly_throw _
  · rename_i hne
    apply canRenderPdfPages_orderly.bind
    intro pdfPageImages
    apply (searchFile_orderly _).bind
    intro _
    apply (searchFile_orderly _).bind
    intro copyResult
    apply (searchFile_orderly _).bind
    intro head
    apply (searchFile_orderly _).bind
    intro obj
    apply (readMoveSource_orderly _ _ _ _).bind
    intro src
    apply (searchFile_orderly _).bind
    intro version
    exact finishMove_orderly ctx hne _ _ src _ _

theorem searchRm_orderly (ctx : SearchContext) (params : RmParams) :
  Orderly (searchRm ctx params)
  := by
  apply (searchFile_orderly _).bind
  intro _
  apply (searchFile_orderly _).bind
  intro _
  apply (removeIndex_orderly _ _).bind
  intro _
  apply (searchFile_orderly _).bind
  exact fun _ => orderly_pure _

theorem answerFile_orderly {op : SearchOp Response} (h : Orderly op) :
  Orderly (answerFile op)
  := h.bind (fun _ => orderly_pure _)

/-- A system that runs no file operation. -/
def SearchPerms.jobs : SearchPerms := ⟨fun _ => False, True⟩

theorem runJob_orderly (sha256 : Bytes → Text) {op : SearchOp Unit}
    (h : op.run.Segments (SearchSegment sha256 .jobs)) :
  Orderly (runJob op)
  := (orderly_of_steps (fun _ => id) h).bind (fun _ => orderly_pure _)

/-- Every request orders its events. -/
theorem SearchRequest.program_orderly (sha256 : Bytes → Text) (stripBase64 : Text → Text)
    (request : SearchRequest) :
  Orderly (request.program sha256 stripBase64)
  := by
  cases request with
  | write ctx params => exact answerFile_orderly (searchWriteInternal_orderly _ _ _ _)
  | writeRaw limit ctx params => exact answerFile_orderly (searchWriteInternal_orderly _ _ _ _)
  | edit ctx params => exact answerFile_orderly (searchEdit_orderly _ _)
  | append ctx params => exact answerFile_orderly (searchAppend_orderly _ _)
  | revert ctx params => exact answerFile_orderly (searchRevert_orderly _ _)
  | cp ctx params => exact answerFile_orderly (searchCp_orderly _ _)
  | mv ctx params => exact answerFile_orderly (searchMv_orderly _ _)
  | rm ctx params => exact answerFile_orderly (searchRm_orderly _ _)
  | embeddingWorker =>
      exact runJob_orderly sha256 (embeddingWorker_steps stripBase64)
  | runPendingImageEmbeddings opts fuel =>
      exact runJob_orderly sha256 (runPendingImageEmbeddings_steps opts fuel)
  | runEmbeddingMigration opts fuel =>
      exact runJob_orderly sha256
        (runEmbeddingMigration_steps trivial stripBase64 opts fuel)
  | runFtsMigration opts fuel =>
      exact runJob_orderly sha256 (runFtsMigration_steps opts fuel)

/-- In every run every program orders its events. -/
theorem searchPool_readsFirst (sha256 : Bytes → Text) (stripBase64 : Text → Text)
    (w : SearchWorld) (requests : List SearchRequest) (sched : List (Nat × SearchInput)) :
  (searchPool sha256 stripBase64 w requests).Admits
    (fun cf i r => ReadsFirst (cf.own i) r.1) sched
  := by
  apply And.left
  apply Pool.run_follows (R := fun _ => ReadsFirst) (Q := fun _ _ _ => True)
  intro i p hp
  obtain ⟨r, -, rfl⟩ := List.mem_map.mp (List.mem_of_getElem? hp)
  apply Prog.Follows.mono _ (r.program_orderly sha256 stripBase64 _)
  intro h' r' _
  trivial

end

end AgentFs

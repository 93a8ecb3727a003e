import AgentFs.Ops.Protocol
import AgentFs.Webhooks.System

/-!
# What the requests of a drive store

File and comment operations run over one drive.  `DriveStep` says all that one segment of
such a request can do to `files`, `file_versions` and `comments`: record a version of a
path that the request names, soft-delete the comments of a removed path, or change the
comments as its comment operation says.
-/

namespace AgentFs

open Async

/-- A request to the files or the comments of a drive. -/
inductive DriveRequest where
  | file (ctx : OpContext) (request : Request)
  | comment (ctx : OpContext) (request : CommentRequest)
  deriving DecidableEq, Repr

/-- The request, as one to the webhook system. -/
def DriveRequest.hook : DriveRequest → HookRequest
  | .file ctx request => .file ctx request
  | .comment ctx request => .comment ctx request

/-- File and comment requests that have just been received. -/
abbrev drivePool (sha256 : Bytes → Text) (toLowerCase : Text → Text) (w : HookWorld)
    (requests : List DriveRequest) : Pool HookWorld HookInput HookEvent
      (Except OpError HookAnswer) :=
  hookPool sha256 toLowerCase w (requests.map DriveRequest.hook)

/-- The request may record a version of the path. -/
def Request.Records (request : Request) (path : Text) : Prop :=
  request.target? = some path ∨ request.removed? = some path

/-- The comments after `rm` has soft-deleted those of a path. -/
def uncommented (ctx : OpContext) (path : Text) (now : Nat) (comments : List CommentRow) :
    List CommentRow :=
  comments.map (fun c =>
    if c.path = path ∧ c.driveId = ctx.driveId then
      { c with isDeleted := true, updatedAt := seconds now }
    else c)

/-- The comments after a comment was deleted: a root comment takes its replies with it. -/
def withoutComment (ctx : OpContext) (row : CommentRow) (now : Nat)
    (comments : List CommentRow) : List CommentRow :=
  comments.map (fun c =>
    if (c.id = row.id ∨ (row.parentId.filter (· ≠ []) = none ∧ c.parentId = some row.id)) ∧
        c.orgId = ctx.orgId ∧ c.driveId = ctx.driveId then
      { c with isDeleted := true, updatedAt := seconds now }
    else c)

/-- The same comment of the same thread, live or deleted alike. -/
structure SameThread (c c' : CommentRow) : Prop where
  id : c'.id = c.id
  parentId : c'.parentId = c.parentId
  orgId : c'.orgId = c.orgId
  driveId : c'.driveId = c.driveId
  path : c'.path = c.path
  isDeleted : c'.isDeleted = c.isDeleted

/-- What one segment of a file request does. -/
inductive FileStep (ctx : OpContext) (request : Request) (x : Input) (db db' : Db) : Prop where
  | same (files : db'.files = db.files) (versions : db'.fileVersions = db.fileVersions)
      (comments : db'.comments = db.comments)
  /-- A version of a path of the request is recorded. -/
  | recorded (path : Text) (records : request.Records path)
      (files : ∀ f ∈ db'.files, f ∈ db.files ∨ f.path = path)
      (versions : ∀ r ∈ db'.fileVersions, r ∈ db.fileVersions ∨ r.path = path)
      (comments : db'.comments = db.comments)
  /-- `rm` soft-deletes the comments of its path. -/
  | uncommented (params : RmParams) (rm : request = .rm params)
      (files : db'.files = db.files) (versions : db'.fileVersions = db.fileVersions)
      (comments : db'.comments =
        uncommented ctx (normalizePath params.path) x.now db.comments)

/-- What a comment request does to the comments. -/
inductive CommentStep (ctx : OpContext) (x : Input) (db : Db) :
    CommentRequest → List CommentRow → Prop where
  | added (params : CommentAddParams) (path : Text) (at_path : commentPath ctx params db = .ok path)
      (fresh : ∀ c ∈ db.comments, c.id ≠ x.uuid 0) :
      CommentStep ctx x db (.add params) (db.comments ++ [newComment ctx params path x db])
  | revised (request : CommentRequest) (change : CommentRow → CommentRow)
      (keeps : ∀ c, SameThread c (change c)) :
      CommentStep ctx x db request (db.comments.map change)
  | deleted (id : Text) (row : CommentRow) (found : getScopedComment ctx id db = some row) :
      CommentStep ctx x db (.delete id) (withoutComment ctx row x.now db.comments)

/-- What one segment of a request does to the files, the versions and the comments. -/
inductive DriveStep (x : Input) (db db' : Db) : DriveRequest → Prop where
  | same (request : DriveRequest) (files : db'.files = db.files)
      (versions : db'.fileVersions = db.fileVersions) (comments : db'.comments = db.comments) :
      DriveStep x db db' request
  | file (ctx : OpContext) (request : Request) (step : FileStep ctx request x db db') :
      DriveStep x db db' (.file ctx request)
  | comment (ctx : OpContext) (request : CommentRequest) (files : db'.files = db.files)
      (versions : db'.fileVersions = db.fileVersions)
      (step : CommentStep ctx x db request db'.comments) :
      DriveStep x db db' (.comment ctx request)

/-! ### File operations -/

/-- A segment of a file request that always does one of the steps. -/
def FileSegment (ctx : OpContext) (request : Request) (f : World → Input → Event × World) :
    Prop :=
  ∀ w x, FileStep ctx request x w.db (f w x).2.db

section

variable {ctx : OpContext} {request : Request}

/-- A segment that leaves the database alone. -/
theorem fileSegment_of_db {α : Type} {f : World → Input → Except OpError α × Event × World}
    (h : ∀ w x, (f w x).2.2.db = w.db) :
  (segment f).run.Segments (FileSegment ctx request)
  := by
  apply Fallible.segments_atomic
  intro w x
  have hdb := h w x
  apply FileStep.same
  · rw [hdb]
  · rw [hdb]
  · rw [hdb]

theorem assertKeyInsideDrive_file (backend : Backend) (key : Text) :
  (assertKeyInsideDrive backend key).run.Segments (FileSegment ctx request)
  := by
  unfold assertKeyInsideDrive
  split
  · apply Fallible.segments_pure
  · split
    · apply Fallible.segments_throw
    · apply Fallible.segments_throw

theorem readAt_file (loc : Loc) (key : Text) :
  (readAt loc key).run.Segments (FileSegment ctx request)
  := by
  apply fileSegment_of_db
  intro w x
  split
  · rfl
  · split
    · rfl
    · rfl

theorem getObject_file (backend : Backend) (key : Text) :
  (getObject backend key).run.Segments (FileSegment ctx request)
  := by
  apply Fallible.segments_bind (assertKeyInsideDrive_file _ _)
  intro _
  apply readAt_file

theorem existsAt_file (loc : Loc) :
  (existsAt loc).run.Segments (FileSegment ctx request)
  := by
  apply fileSegment_of_db
  intro w x
  split
  · rfl
  · rfl

theorem uploadBlob_file (loc : Loc) (obj : Obj) :
  (uploadBlob loc obj).run.Segments (FileSegment ctx request)
  := by
  apply fileSegment_of_db
  intro w x
  split
  · rfl
  · rfl

theorem uploadAt_file (loc : Loc) (obj : Obj) :
  (uploadAt loc obj).run.Segments (FileSegment ctx request)
  := by
  apply fileSegment_of_db
  intro w x
  split
  · rfl
  · rfl

theorem putObject_file (sha256 : Bytes → Text) (backend : Backend) (key : Text) (bytes : Bytes)
    (contentType : Option Text) :
  (putObject sha256 backend key bytes contentType).run.Segments (FileSegment ctx request)
  := by
  cases backend with
  | «local» =>
      have hrest : (do
          uploadAt (locate .local key) ⟨bytes, contentType⟩
          pure ⟨some (sha256 bytes), some (sha256 bytes)⟩ : Op PutObjectResult).run.Segments
            (FileSegment ctx request) := by
        apply Fallible.segments_bind (uploadAt_file _ _)
        intro _
        apply Fallible.segments_pure
      apply Fallible.segments_bind (assertKeyInsideDrive_file _ _)
      intro _
      apply Fallible.segments_bind (existsAt_file _)
      intro found
      split
      · apply Fallible.segments_bind (uploadBlob_file _ _)
        intro _
        exact hrest
      · exact hrest
  | s3 versioningEnabled =>
      apply fileSegment_of_db
      intro w x
      split
      · rfl
      · apply World.keepVersion_db

theorem getObjectVersion_file (backend : Backend) (key versionId : Text) :
  (getObjectVersion backend key versionId).run.Segments (FileSegment ctx request)
  := by
  cases backend with
  | «local» =>
      apply Fallible.segments_bind (assertKeyInsideDrive_file _ _)
      intro _
      apply Fallible.segments_bind (assertKeyInsideDrive_file _ _)
      intro _
      apply readAt_file
  | s3 versioningEnabled =>
      apply fileSegment_of_db
      intro w x
      split
      · rfl
      · split
        · rfl
        · rfl

theorem deleteObject_file (backend : Backend) (key : Text) :
  (deleteObject backend key).run.Segments (FileSegment ctx request)
  := by
  apply Fallible.segments_bind (assertKeyInsideDrive_file _ _)
  intro _
  apply fileSegment_of_db
  intro w x
  split
  · rfl
  · rfl

theorem copyObject_file (sha256 : Bytes → Text) (backend : Backend) (fromKey toKey : Text) :
  (copyObject sha256 backend fromKey toKey).run.Segments (FileSegment ctx request)
  := by
  apply Fallible.segments_bind (assertKeyInsideDrive_file _ _)
  intro _
  apply Fallible.segments_bind (assertKeyInsideDrive_file _ _)
  intro _
  apply Fallible.segments_bind (getObject_file _ _)
  intro src
  apply putObject_file

theorem assertExpectedVersion_file (ctx' : OpContext) (path : Text) (expectedVersion : Int) :
  (assertExpectedVersion ctx' path expectedVersion).run.Segments (FileSegment ctx request)
  := by
  apply fileSegment_of_db
  intro w x
  split
  · rfl
  · rfl

theorem checkExpectedVersion_file (ctx' : OpContext) (path : Text)
    (expectedVersion : Option Int) :
  (checkExpectedVersion ctx' path expectedVersion).run.Segments (FileSegment ctx request)
  := by
  cases expectedVersion with
  | none => apply Fallible.segments_pure
  | some e =>
      apply Fallible.segments_bind (assertExpectedVersion_file _ _ _)
      intro _
      apply Fallible.segments_pure

/-- The version recorded by `createVersion` is of its path, and so is the metadata. -/
theorem createVersionTx_file {ctx' : OpContext} {params : VersionParams} {version : Nat}
    {x : Input} {db db' : Db} (hrecords : request.Records params.path)
    (h : createVersionTx ctx' params version x db = .ok db') :
  FileStep ctx request x db db'
  := by
  have hrec := createVersionTx_records h
  apply FileStep.recorded params.path hrecords
  · intro f hf
    by_cases hplace : f.path = params.path ∧ f.driveId = ctx'.driveId
    · exact .inr hplace.1
    · left
      have hother := hrec.files_other f.driveId f.path hplace
      have hmem : f ∈ db'.filesOf f.driveId f.path := by simpa using hf
      rw [hother] at hmem
      exact (Db.mem_filesOf.mp hmem).1
  · intro r hr
    rw [hrec.versions, List.mem_append, List.mem_singleton] at hr
    cases hr with
    | inl hold => exact .inl hold
    | inr hnew =>
        rw [hnew]
        exact .inr rfl
  · unfold createVersionTx insertVersion at h
    split at h
    · cases h
    · split at h
      · cases h
      · rw [enqueueFileWebhooks_frame h]
        unfold upsertFile
        split
        · rfl
        · rfl

theorem createVersion_file (ctx' : OpContext) {params : VersionParams}
    (hrecords : request.Records params.path) :
  (createVersion ctx' params).run.Segments (FileSegment ctx request)
  := by
  apply Fallible.segments_bind
  · apply fileSegment_of_db
    intro w x
    rfl
  · intro version
    apply Fallible.segments_bind
    · apply Fallible.segments_atomic
      intro w x
      dsimp only
      split
      · rename_i db hdb
        exact createVersionTx_file hrecords hdb
      · exact .same rfl rfl rfl
    · intro _
      apply Fallible.segments_pure

theorem afterCommit_file :
  afterCommit.run.Segments (FileSegment ctx request)
  := by
  apply fileSegment_of_db
  intro w x
  split
  · rfl
  · rfl

theorem answer_file (answer : Response) :
  (do afterCommit; pure answer : Op Response).run.Segments (FileSegment ctx request)
  := by
  apply Fallible.segments_bind afterCommit_file
  intro _
  apply Fallible.segments_pure

theorem storeVersion_file (sha256 : Bytes → Text) (ctx' : OpContext) {path : Text}
    (hrecords : request.Records path) (operation : Operation) (bytes : Bytes)
    (message diffSummary : Option Text) :
  (storeVersion sha256 ctx' path operation bytes message diffSummary).run.Segments
    (FileSegment ctx request)
  := by
  apply Fallible.segments_bind (putObject_file _ _ _ _ _)
  intro s3Result
  exact createVersion_file ctx' hrecords

theorem copyVersion_file (sha256 : Bytes → Text) (ctx' : OpContext) (source : Text)
    {target : Text} (hrecords : request.Records target) (message : Text) :
  (copyVersion sha256 ctx' source target message).run.Segments (FileSegment ctx request)
  := by
  apply Fallible.segments_bind (copyObject_file _ _ _ _)
  intro copyResult
  apply Fallible.segments_bind (getObject_file _ _)
  intro head
  apply Fallible.segments_bind (getObject_file _ _)
  intro obj
  exact createVersion_file ctx' hrecords

theorem deleteVersion_file (ctx' : OpContext) {path : Text} (hrecords : request.Records path)
    (message : Option Text) :
  (deleteVersion ctx' path message).run.Segments (FileSegment ctx request)
  := by
  apply Fallible.segments_bind (deleteObject_file _ _)
  intro _
  apply Fallible.segments_bind
  · exact createVersion_file ctx' hrecords
  · intro _
    apply Fallible.segments_pure

theorem dedupVersion_file (ctx' : OpContext) (path contentHash : Text)
    (expectedVersion : Option Int) :
  (dedupVersion ctx' path contentHash expectedVersion).run.Segments (FileSegment ctx request)
  := by
  cases expectedVersion with
  | none => apply Fallible.segments_pure
  | some e =>
      apply Fallible.segments_bind (assertExpectedVersion_file _ _ _)
      intro current
      split
      · apply Fallible.segments_bind
        · apply fileSegment_of_db
          intro w x
          rfl
        · intro headHash
          apply Fallible.segments_pure
      · apply Fallible.segments_pure

theorem writeInternal_file (sha256 : Bytes → Text) (ctx' : OpContext) (params : WriteRawParams)
    (opts : WriteOpts) (hrecords : request.Records (normalizePath params.path)) :
  (writeInternal sha256 ctx' params opts).run.Segments (FileSegment ctx request)
  := by
  unfold writeInternal
  dsimp only
  split
  · apply Fallible.segments_throw
  · apply Fallible.segments_bind (dedupVersion_file _ _ _ _)
    intro deduped
    cases deduped with
    | some current => apply Fallible.segments_pure
    | none =>
        apply Fallible.segments_bind (storeVersion_file _ _ hrecords _ _ _ _)
        intro version
        apply answer_file

/-- A read of an object and then of the head of its path. -/
theorem readThenHead_file {object : Op Obj} (hobject : object.run.Segments (FileSegment ctx request))
    (ctx' : OpContext) (path : Text) (answer : Obj → Option FileVersionRow → Response) :
  (do
    let obj ← object
    let head ← readHeadRow ctx' path
    pure (answer obj head) : Op Response).run.Segments (FileSegment ctx request)
  := by
  apply Fallible.segments_bind hobject
  intro obj
  apply Fallible.segments_bind
  · apply fileSegment_of_db
    intro w x
    rfl
  · intro head
    apply Fallible.segments_pure

end

/-- Every segment of a file request does one of the steps. -/
theorem Request.program_file (sha256 : Bytes → Text) (ctx : OpContext) (request : Request) :
  (request.program sha256 ctx).run.Segments (FileSegment ctx request)
  := by
  cases request with
  | write params => exact writeInternal_file _ _ _ _ (.inl rfl)
  | writeRaw limit params => exact writeInternal_file _ _ _ _ (.inl rfl)
  | edit params =>
      apply Fallible.segments_bind (checkExpectedVersion_file _ _ _)
      intro _
      apply Fallible.segments_bind (Fallible.segments_mapError (getObject_file _ _))
      intro object
      dsimp only
      split
      · apply Fallible.segments_throw
      · split
        · apply Fallible.segments_throw
        · apply Fallible.segments_bind (storeVersion_file _ _ (.inl rfl) _ _ _ _)
          intro version
          apply answer_file
  | append params =>
      apply Fallible.segments_bind (checkExpectedVersion_file _ _ _)
      intro _
      apply Fallible.segments_bind (Fallible.segments_mapError (getObject_file _ _))
      intro object
      apply Fallible.segments_bind (storeVersion_file _ _ (.inl rfl) _ _ _ _)
      intro version
      apply answer_file
  | revert params =>
      show (AgentFs.revert sha256 ctx params).run.Segments _
      unfold AgentFs.revert
      dsimp only
      split
      · apply Fallible.segments_throw
      · apply Fallible.segments_bind (checkExpectedVersion_file _ _ _)
        intro _
        apply Fallible.segments_bind
        · apply fileSegment_of_db
          intro w x
          split
          · rfl
          · rfl
        · intro targetVersion
          split
          · apply Fallible.segments_throw
          · apply Fallible.segments_bind (getObjectVersion_file _ _ _)
            intro oldContent
            apply Fallible.segments_bind (storeVersion_file _ _ (.inl rfl) _ _ _ _)
            intro version
            apply answer_file
  | cp params =>
      show (AgentFs.cp sha256 ctx params).run.Segments _
      unfold AgentFs.cp
      dsimp only
      split
      · apply Fallible.segments_throw
      · apply Fallible.segments_bind (checkExpectedVersion_file _ _ _)
        intro _
        apply Fallible.segments_bind (copyVersion_file _ _ _ (.inl rfl) _)
        intro version
        apply answer_file
  | mv params =>
      show (AgentFs.mv sha256 ctx params).run.Segments _
      unfold AgentFs.mv
      dsimp only
      split
      · apply Fallible.segments_throw
      · apply Fallible.segments_bind (checkExpectedVersion_file _ _ _)
        intro _
        apply Fallible.segments_bind (copyVersion_file _ _ _ (.inl rfl) _)
        intro version
        apply Fallible.segments_bind (deleteVersion_file _ (.inr rfl) _)
        intro _
        apply answer_file
  | rm params =>
      apply Fallible.segments_bind (checkExpectedVersion_file _ _ _)
      intro _
      apply Fallible.segments_bind (deleteVersion_file _ (.inr rfl) _)
      intro _
      apply Fallible.segments_bind
      · apply Fallible.segments_atomic
        intro w x
        dsimp only
        split
        · exact .same rfl rfl rfl
        · exact .uncommented params rfl rfl rfl rfl
      · intro _
        apply answer_file
  | openRead path => exact readThenHead_file (getObject_file _ _) _ _ _
  | getRaw urlPath =>
      exact readThenHead_file (Fallible.segments_mapError (getObject_file _ _)) _ _ _

/-! ### Comment operations -/

/-- `files`, `file_versions` and `comments` are as they were. -/
structure SameDrive (db db' : Db) : Prop where
  files : db'.files = db.files
  versions : db'.fileVersions = db.fileVersions
  comments : db'.comments = db.comments

/-- The end of the transaction of a comment inserts events, which changes none of the
three tables. -/
theorem sameDrive_insertEvents {db₁ db' : Db} {rows : List EventRow}
    {events events' : List CommentWebhookEvent}
    (h : (do let db₂ ← insertEvents rows db₁; pure (db₂, events) :
      Except SqlError (Db × List CommentWebhookEvent)) = .ok (db', events')) :
  SameDrive db₁ db'
  := by
  obtain ⟨db₂, hins, hpure⟩ := bind_eq_ok_iff.mp h
  cases hpure
  rw [insertEvents_frame hins]
  exact ⟨rfl, rfl, rfl⟩

theorem requireComment_found {ctx : OpContext} {id : Text} {db : Db} {row : CommentRow}
    (h : requireComment ctx id db = .ok row) :
  getScopedComment ctx id db = some row
  := by
  unfold requireComment at h
  split at h
  · rename_i hfound
    cases h
    exact hfound
  · cases h

/-- The end of `commentPath`: a path must have been found. -/
theorem foundPath_ok {found : Option Text} {path : Text}
    (h : (match found.filter (· ≠ []) with
      | none => throw (.validation
          { message := "path is required for root comments", field := "path" })
      | some path => pure (normalizePath path) : Except OpError Text) = .ok path) :
  ∃ p, found = some p ∧ path = normalizePath p
  := by
  split at h
  · cases h
  · rename_i p hp
    cases h
    exact ⟨p, (Option.filter_eq_some_iff.mp hp).1, rfl⟩

/-- Where a new comment is: at its own path, or, in reply to a live root comment, at its
own path or that of the root. -/
theorem commentPath_cases {ctx : OpContext} {params : CommentAddParams} {db : Db} {path : Text}
    (h : commentPath ctx params db = .ok path) :
  (params.parentId.filter (· ≠ []) = none ∧
    ∃ p, params.path = some p ∧ path = normalizePath p) ∨
  ∃ parentId parent, params.parentId = some parentId ∧
    getScopedComment ctx parentId db = some parent ∧
    parent.parentId.filter (· ≠ []) = none ∧
    ∃ p, path = normalizePath p ∧ (params.path = some p ∨ parent.path = p)
  := by
  unfold commentPath at h
  dsimp only at h
  split at h
  · rename_i hparent
    left
    obtain ⟨p, hp, hpath⟩ := foundPath_ok h
    exact ⟨hparent, p, (Option.filter_eq_some_iff.mp hp).1, hpath⟩
  · rename_i parentId hparentId
    right
    split at h
    · cases h
    · rename_i parent hparent
      split at h
      · cases h
      · rename_i hroot
        obtain ⟨p, hp, hpath⟩ := foundPath_ok h
        refine ⟨parentId, parent, (Option.filter_eq_some_iff.mp hparentId).1, hparent,
          Option.not_isSome_iff_eq_none.mp hroot, p, hpath, ?_⟩
        cases hown : params.path.filter (· ≠ []) with
        | none =>
            rw [hown] at hp
            exact .inr (Option.some.inj hp)
        | some own =>
            rw [hown] at hp
            cases hp
            exact .inl (Option.filter_eq_some_iff.mp hown).1

/-- What the transaction of a comment request does to the three tables. -/
theorem CommentRequest.change_step {toLowerCase : Text → Text} {ctx : OpContext} {x : Input}
    {db db' : Db} {request : CommentRequest} {change : CommentChange}
    {events : List CommentWebhookEvent} (h : request.change toLowerCase ctx x db = .ok change)
    (htx : change.tx = .ok (db', events)) :
  db'.files = db.files ∧ db'.fileVersions = db.fileVersions ∧
    CommentStep ctx x db request db'.comments
  := by
  cases request with
  | add params =>
      obtain ⟨path, hpath, h⟩ := bind_eq_ok_iff.mp h
      obtain ⟨userIds, -, h⟩ := bind_eq_ok_iff.mp h
      cases h
      dsimp only at htx
      unfold commentAddTx at htx
      split at htx
      · cases htx
      · rename_i hfresh
        have hsame := sameDrive_insertEvents htx
        refine ⟨hsame.files, hsame.versions, ?_⟩
        rw [hsame.comments]
        apply CommentStep.added params path hpath
        intro c hc hid
        exact hfresh ⟨c, hc, hid⟩
  | update params =>
      obtain ⟨row, -, h⟩ := bind_eq_ok_iff.mp h
      obtain ⟨_, -, h⟩ := bind_eq_ok_iff.mp h
      have hrevised (mentions : Option (List Text))
          (htx : commentUpdateTx ctx params mentions x db = .ok (db', events)) :
        db'.files = db.files ∧ db'.fileVersions = db.fileVersions ∧
          CommentStep ctx x db (.update params) db'.comments
        := by
        unfold commentUpdateTx at htx
        cases mentions with
        | none =>
            have hsame := sameDrive_insertEvents htx
            refine ⟨hsame.files, hsame.versions, ?_⟩
            rw [hsame.comments]
            apply CommentStep.revised
            intro c
            split
            · exact ⟨rfl, rfl, rfl, rfl, rfl, rfl⟩
            · exact ⟨rfl, rfl, rfl, rfl, rfl, rfl⟩
        | some userIds =>
            have hsame := sameDrive_insertEvents htx
            refine ⟨hsame.files, hsame.versions, ?_⟩
            rw [hsame.comments]
            apply CommentStep.revised
            intro c
            split
            · exact ⟨rfl, rfl, rfl, rfl, rfl, rfl⟩
            · exact ⟨rfl, rfl, rfl, rfl, rfl, rfl⟩
      dsimp only at h
      split at h
      · cases h
        exact hrevised none htx
      · obtain ⟨userIds, -, h⟩ := bind_eq_ok_iff.mp h
        cases h
        exact hrevised _ htx
  | delete id =>
      obtain ⟨row, hrow, h⟩ := bind_eq_ok_iff.mp h
      obtain ⟨_, -, h⟩ := bind_eq_ok_iff.mp h
      cases h
      have hsame := sameDrive_insertEvents htx
      refine ⟨hsame.files, hsame.versions, ?_⟩
      rw [hsame.comments]
      have hcomments := CommentStep.deleted (x := x) id row (requireComment_found hrow)
      unfold withoutComment at hcomments
      simpa only [updateComments, decide_eq_true_eq] using hcomments
  | resolve params =>
      obtain ⟨row, -, h⟩ := bind_eq_ok_iff.mp h
      split at h
      · cases h
      · cases h
        have hsame := sameDrive_insertEvents htx
        refine ⟨hsame.files, hsame.versions, ?_⟩
        rw [hsame.comments]
        apply CommentStep.revised
        intro c
        split
        · exact ⟨rfl, rfl, rfl, rfl, rfl, rfl⟩
        · exact ⟨rfl, rfl, rfl, rfl, rfl, rfl⟩

/-! ### Runs -/

/-- A segment of a request that always does one of the steps. -/
def DriveSegment (request : DriveRequest) (f : HookWorld → HookInput → HookEvent × HookWorld) :
    Prop :=
  ∀ w x, DriveStep x.toInput w.world.db (f w x).2.world.db request

theorem CommentRequest.program_drive (toLowerCase : Text → Text) (ctx : OpContext)
    (request : CommentRequest) :
  (request.program toLowerCase ctx).run.Segments (DriveSegment (.comment ctx request))
  := by
  apply Fallible.segments_atomic
  intro w x
  dsimp only
  split
  · exact .same _ rfl rfl rfl
  · rename_i change hchange
    split
    · exact .same _ rfl rfl rfl
    · rename_i db' mutation hcommit
      unfold commitComment at hcommit
      split at hcommit
      · cases hcommit
      · obtain ⟨⟨db₁, events⟩, htx, hcommit⟩ := bind_eq_ok_iff.mp hcommit
        obtain ⟨db₂, houtbox, hpure⟩ := bind_eq_ok_iff.mp hcommit
        cases hpure
        obtain ⟨hfiles, hversions, hstep⟩ := change_step hchange htx
        have hframe := enqueueCommentWebhooks_frame houtbox
        apply DriveStep.comment
        · rw [hframe, ← hfiles]
        · rw [hframe, ← hversions]
        · rw [hframe]
          exact hstep

theorem embedFile_drive {α : Type} {ctx : OpContext} {request : Request} {op : Op α}
    (h : op.run.Segments (FileSegment ctx request)) :
  (embedFile ctx op).run.Segments (DriveSegment (.file ctx request))
  := by
  apply Prog.Segments.embed _ h
  intro f hf w x
  exact .file ctx request (hf w.world x.toInput)

/-- Every segment of a request does one of its steps. -/
theorem DriveRequest.program_drive (sha256 : Bytes → Text) (toLowerCase : Text → Text)
    (request : DriveRequest) :
  (request.hook.program sha256 toLowerCase).run.Segments (DriveSegment request)
  := by
  cases request with
  | file ctx request =>
      apply Fallible.segments_bind (embedFile_drive (request.program_file sha256 ctx))
      intro response
      apply Fallible.segments_pure
  | comment ctx request =>
      apply Fallible.segments_bind (request.program_drive toLowerCase ctx)
      intro response
      apply Fallible.segments_pure

/-- Every step of every run of file and comment requests is one of the steps of the request
that takes it. -/
theorem drivePool_steps (sha256 : Bytes → Text) (toLowerCase : Text → Text) (w : HookWorld)
    (requests : List DriveRequest) (sched : List (Nat × HookInput)) :
  (drivePool sha256 toLowerCase w requests).Admits (fun cf i r => ∃ request x,
    requests[i]? = some request ∧ DriveStep x cf.state.world.db r.2.world.db request) sched
  := by
  have hsegments := Pool.admits_of_segments (P := drivePool sha256 toLowerCase w requests)
    (S := fun i f => ∃ request, requests[i]? = some request ∧ DriveSegment request f) ?_ sched
  · apply hsegments.mono
    rintro cf i r ⟨f, x, ⟨request, hrequest, hf⟩, rfl⟩
    exact ⟨request, x.toInput, hrequest, hf cf.state x⟩
  · intro i p hp
    simp only [drivePool, hookPool, List.getElem?_map, Option.map_eq_some_iff] at hp
    obtain ⟨_, ⟨request, hrequest, rfl⟩, rfl⟩ := hp
    apply Prog.Segments.mono _ (request.program_drive sha256 toLowerCase)
    intro f hf
    exact ⟨request, hrequest, hf⟩

end AgentFs

import AgentFs.Ops.Files

/-!
# What a segment does

Every segment of every request is lawful: the event it reports says all it does to the
objects, to `file_versions` and to `files`, and what the event says it has read is what
was there.  The development reasons about runs through this law and never unfolds an
operation again for what it does to the world.
-/

namespace AgentFs

open Async

/-! ### The transaction of `createVersion` -/

/-- `db'` is `db` with the version `row` recorded. -/
structure Records (db : Db) (row : FileVersionRow) (db' : Db) : Prop where
  /-- The UNIQUE index had no such version. -/
  fresh : ∀ r ∈ db.fileVersions, ¬ row.Clashes r
  versions : db'.fileVersions = db.fileVersions ++ [row]
  /-- The file has one row of metadata, if it had at most one before. -/
  files_length : (db'.filesOf row.driveId row.path).length =
    max 1 (db.filesOf row.driveId row.path).length
  /-- The metadata of the file points to the new version. -/
  files_row : ∀ f ∈ db'.filesOf row.driveId row.path,
    f.currentVersionId = some (toString row.version).toList ∧
      f.isDeleted = decide (row.operation = .delete)
  /-- The metadata of the other files is as it was. -/
  files_other : ∀ driveId path, ¬ (path = row.path ∧ driveId = row.driveId) →
    db'.filesOf driveId path = db.filesOf driveId path

/-- The metadata rows of the upserted file, and of the others. -/
theorem upsertFile_spec (ctx : OpContext) (params : VersionParams) (version now : Nat) (db : Db) :
  ((upsertFile ctx params version now db).filesOf ctx.driveId params.path).length =
      max 1 (db.filesOf ctx.driveId params.path).length ∧
    (∀ f ∈ (upsertFile ctx params version now db).filesOf ctx.driveId params.path,
      f.currentVersionId = some (toString version).toList ∧
        f.isDeleted = decide (params.operation = .delete)) ∧
    ∀ driveId path, ¬ (path = params.path ∧ driveId = ctx.driveId) →
      (upsertFile ctx params version now db).filesOf driveId path = db.filesOf driveId path
  := by
  unfold upsertFile
  cases hexisting : (db.filesOf ctx.driveId params.path).head? with
  | none =>
      have hnil : db.filesOf ctx.driveId params.path = [] := List.head?_eq_none_iff.mp hexisting
      refine ⟨?_, ?_, ?_⟩
      · simp only [Db.filesOf, List.filter_append] at hnil ⊢
        simp only [hnil, List.nil_append]
        simp
      · intro f hf
        simp only [Db.filesOf, List.filter_append] at hnil hf
        simp only [hnil, List.nil_append] at hf
        have hf := List.mem_of_mem_filter hf
        simp only [List.mem_singleton] at hf
        simp [hf]
      · intro driveId path hne
        have hne' : ¬ (params.path = path ∧ ctx.driveId = driveId) :=
          fun h => hne ⟨h.1.symm, h.2.symm⟩
        simp [Db.filesOf, hne']
  | some existing =>
      refine ⟨?_, ?_, ?_⟩
      · have hmem : existing ∈ db.filesOf ctx.driveId params.path :=
          List.mem_of_head? hexisting
        have hpos : 1 ≤ (db.filesOf ctx.driveId params.path).length :=
          List.length_pos_of_mem hmem
        rw [max_eq_right hpos]
        simp only [Db.filesOf, List.filter_map, List.length_map]
        congr 1
        apply List.filter_congr
        intro f _
        simp only [Function.comp]
        split <;> simp_all
      · intro f hf
        simp only [Db.mem_filesOf, List.mem_map] at hf
        obtain ⟨⟨g, -, rfl⟩, hpath, hdrive⟩ := hf
        split
        · exact ⟨rfl, rfl⟩
        · rename_i hg
          rw [if_neg hg] at hpath hdrive
          exact absurd ⟨hpath, hdrive⟩ hg
      · intro driveId path hne
        simp only [Db.filesOf, List.filter_map]
        have hkey : ∀ f : FileRow, (f.path = path ∧ f.driveId = driveId) →
            ¬ (f.path = params.path ∧ f.driveId = ctx.driveId) := by
          rintro f ⟨rfl, rfl⟩
          exact hne
        rw [List.filter_congr (q := fun f => f.path = path ∧ f.driveId = driveId)]
        · apply List.map_congr_left _ |>.trans (List.map_id _)
          intro f hf
          have hf := List.of_mem_filter hf
          simp only [decide_eq_true_eq] at hf
          rw [if_neg (hkey f hf)]
          rfl
        · intro f _
          simp only [Function.comp]
          split
          · rename_i hf
            simp only [hf]
          · rfl

/-- A transaction of `createVersion` that commits records the row. -/
theorem createVersionTx_records {ctx : OpContext} {params : VersionParams} {version : Nat}
    {x : Input} {db db' : Db} (h : createVersionTx ctx params version x db = .ok db') :
  Records db (versionRow ctx params version x.now db) db'
  := by
  unfold createVersionTx insertVersion at h
  split at h
  · cases h
  · split at h
    · cases h
    · rename_i hfresh
      simp only [bind, Except.bind] at h
      have hframe := enqueueFileWebhooks_frame h
      generalize hdb₁ : ({ db with
        fileVersions := db.fileVersions ++ [versionRow ctx params version x.now db]
        fileVersionSeq := (versionRow ctx params version x.now db).id } : Db) = db₁ at hframe
      have hfiles : ∀ driveId path, db₁.filesOf driveId path = db.filesOf driveId path := by
        subst hdb₁
        exact fun _ _ => rfl
      have hframe_files : ∀ driveId path, db'.filesOf driveId path =
          (upsertFile ctx params version x.now db₁).filesOf driveId path := by
        intro driveId path
        rw [hframe]
        rfl
      have hframe_versions : db'.fileVersions = db₁.fileVersions := by
        rw [hframe]
        unfold upsertFile
        split <;> rfl
      obtain ⟨hlen, hrow, hother⟩ := upsertFile_spec ctx params version x.now db₁
      constructor
      · simpa using hfresh
      · rw [hframe_versions, ← hdb₁]
      · rw [hframe_files, ← hfiles]
        exact hlen
      · intro f hf
        rw [hframe_files] at hf
        exact hrow f hf
      · intro driveId path hne
        rw [hframe_files, ← hfiles]
        exact hother driveId path hne

/-! ### The law -/

/-- What an event does to the objects. -/
def Event.applyObjects (objects : Loc → Option Obj) : Event → Loc → Option Obj
  | .storeBlob loc obj => Function.update objects loc (some obj)
  | .storeObject loc obj => Function.update objects loc (some obj)
  | .removeObject loc => Function.update objects loc none
  | _ => objects

/-- What an event does to `file_versions` and `files`. -/
def Event.AppliesTables (db db' : Db) : Event → Prop
  | .commit row => Records db row db'
  | _ => db'.fileVersions = db.fileVersions ∧ db'.files = db.files

section

variable (sha256 : Bytes → Text)

/-- What an event says was read is what was there, and a content-addressed copy is
stored under its hash. -/
def Event.Truthful (w : World) : Event → Prop
  | .probe loc found => found = (w.store.objects loc).isSome
  | .readObject loc obj => obj = w.store.objects loc
  | .readVersion key versionId obj => obj = w.store.versions key versionId
  | .storeBlob loc obj => loc = locate .local (blobKey (sha256 obj.bytes))
  | .checkVersion driveId path expected matched =>
      matched = decide (HeadMatches w.db driveId path expected)
  | .readHead driveId path row => row = getHeadVersionRow w.db driveId path
  | .readRow driveId path version row =>
      row = (w.db.versionsOf driveId path).find? (fun r => (r.version : Int) = version)
  | .allocate driveId path version => version = getNextVersion w.db driveId path
  | _ => True

/-- A segment that does what its event says. -/
structure Lawful (w : World) (r : Event × World) : Prop where
  objects : r.2.store.objects = r.1.applyObjects w.store.objects
  tables : r.1.AppliesTables w.db r.2.db
  reads : r.1.Truthful sha256 w

variable {sha256}

/-- A lawful segment records a version, or leaves the versions and the metadata. -/
theorem Lawful.tables_cases {w : World} {r : Event × World} (h : Lawful sha256 w r) :
  (∃ row, r.1 = .commit row ∧ Records w.db row r.2.db) ∨
    ((∀ row, r.1 ≠ .commit row) ∧ r.2.db.fileVersions = w.db.fileVersions ∧
      r.2.db.files = w.db.files)
  := by
  obtain ⟨ev, w'⟩ := r
  have htables := h.tables
  cases ev with
  | commit row => exact .inl ⟨row, rfl, htables⟩
  | _ => exact .inr ⟨by simp, htables⟩

/-- A segment that changes nothing and reports what it saw. -/
theorem Lawful.refl {w : World} {ev : Event} (hobjects : ev.applyObjects w.store.objects =
      w.store.objects) (htables : ev.AppliesTables w.db w.db) (hreads : ev.Truthful sha256 w) :
  Lawful sha256 w (ev, w)
  := ⟨hobjects.symm, htables, hreads⟩

theorem lawful_fault (w : World) :
  Lawful sha256 w (.fault, w)
  := .refl rfl ⟨rfl, rfl⟩ trivial

theorem lawful_silent (w : World) :
  Lawful sha256 w (.silent, w)
  := .refl rfl ⟨rfl, rfl⟩ trivial

/-- What a segment of a request of `ctx` does to the webhook tables: a version is recorded
by the transaction of `createVersion`, one that throws changes nothing, and no other
segment touches them. -/
def Event.Enqueues (ctx : OpContext) (x : Input) (w w' : World) : Event → Prop
  | .commit row => ∃ params version, row = versionRow ctx params version x.now w.db ∧
      createVersionTx ctx params version x w.db = .ok w'.db
  | .abort _ _ _ _ => w' = w
  | _ => w'.db.subscriptions = w.db.subscriptions ∧ w'.db.deliveries = w.db.deliveries

variable (sha256)

/-- A step of a request of `ctx` that does what its event says. -/
structure LawfulStep (ctx : OpContext) (w : World) (x : Input) (r : Event × World) : Prop where
  lawful : Lawful sha256 w r
  enqueues : r.1.Enqueues ctx x w r.2

/-- A segment of a request of `ctx` that always does what its event says. -/
def LawfulSegment (ctx : OpContext) (f : World → Input → Event × World) : Prop :=
  ∀ w x, LawfulStep sha256 ctx w x (f w x)

variable {sha256} {ctx : OpContext}

theorem segment_lawful {α : Type} {f : World → Input → Except OpError α × Event × World}
    (h : ∀ w x, LawfulStep sha256 ctx w x (f w x).2) :
  (segment f).run.Segments (LawfulSegment sha256 ctx)
  := Fallible.segments_atomic h

/-- A program of lawful segments always does what its events say. -/
theorem always_lawful {α : Type} {p : Prog World Input Event α}
    (hp : p.Segments (LawfulSegment sha256 ctx)) :
  p.Always (Lawful sha256)
  := Prog.Segments.mono (fun _ hf w x => (hf w x).1) hp

/-! ### The storage calls -/

theorem assertKeyInsideDrive_lawful (backend : Backend) (key : Text) :
  (assertKeyInsideDrive backend key).run.Segments (LawfulSegment sha256 ctx)
  := by
  unfold assertKeyInsideDrive
  split
  · exact Fallible.segments_pure _
  · split
    · exact Fallible.segments_throw _
    · exact Fallible.segments_throw _

theorem existsAt_lawful (loc : Loc) :
  (existsAt loc).run.Segments (LawfulSegment sha256 ctx)
  := by
  apply segment_lawful
  intro w x
  split
  · exact ⟨lawful_fault w, rfl, rfl⟩
  · exact ⟨.refl rfl ⟨rfl, rfl⟩ rfl, rfl, rfl⟩

theorem readAt_lawful (loc : Loc) (key : Text) :
  (readAt loc key).run.Segments (LawfulSegment sha256 ctx)
  := by
  apply segment_lawful
  intro w x
  split
  · exact ⟨lawful_fault w, rfl, rfl⟩
  · split
    · rename_i hobj
      exact ⟨.refl rfl ⟨rfl, rfl⟩ hobj.symm, rfl, rfl⟩
    · rename_i obj hobj
      exact ⟨.refl rfl ⟨rfl, rfl⟩ hobj.symm, rfl, rfl⟩

theorem uploadBlob_lawful (obj : Obj) :
  (uploadBlob (locate .local (blobKey (sha256 obj.bytes))) obj).run.Segments (LawfulSegment sha256 ctx)
  := by
  apply segment_lawful
  intro w x
  split
  · exact ⟨lawful_fault w, rfl, rfl⟩
  · exact ⟨⟨rfl, ⟨rfl, rfl⟩, rfl⟩, rfl, rfl⟩

theorem uploadAt_lawful (loc : Loc) (obj : Obj) :
  (uploadAt loc obj).run.Segments (LawfulSegment sha256 ctx)
  := by
  apply segment_lawful
  intro w x
  split
  · exact ⟨lawful_fault w, rfl, rfl⟩
  · exact ⟨⟨rfl, ⟨rfl, rfl⟩, trivial⟩, rfl, rfl⟩

@[simp]
theorem World.keepVersion_db (w : World) (key : Text) (versionId : Option Text) (obj : Obj) :
  (w.keepVersion key versionId obj).db = w.db
  := by
  cases versionId <;> rfl

@[simp]
theorem World.keepVersion_objects (w : World) (key : Text) (versionId : Option Text)
    (obj : Obj) :
  (w.keepVersion key versionId obj).store.objects = w.store.objects
  := by
  cases versionId <;> rfl

theorem putObjectS3_lawful (versioningEnabled : Bool) (key : Text) (obj : Obj) :
  (putObjectS3 versioningEnabled key obj).run.Segments (LawfulSegment sha256 ctx)
  := by
  apply segment_lawful
  intro w x
  split
  · exact ⟨lawful_fault w, rfl, rfl⟩
  · refine ⟨⟨?_, ?_, trivial⟩, ?_⟩
    · simp only [World.keepVersion_objects]
      rfl
    · simp only [Event.AppliesTables, World.keepVersion_db]
      exact ⟨rfl, rfl⟩
    · simp only [Event.Enqueues, World.keepVersion_db]
      exact ⟨rfl, rfl⟩

theorem putObject_lawful (backend : Backend) (key : Text) (bytes : Bytes)
    (contentType : Option Text) :
  (putObject sha256 backend key bytes contentType).run.Segments (LawfulSegment sha256 ctx)
  := by
  cases backend with
  | «local» =>
      apply Fallible.segments_bind (assertKeyInsideDrive_lawful _ _)
      intro _
      apply Fallible.segments_bind (existsAt_lawful _)
      intro found
      have hrest : (do
          uploadAt (locate .local key) ⟨bytes, contentType⟩
          pure ⟨some (sha256 bytes), some (sha256 bytes)⟩ : Op PutObjectResult).run.Segments
            (LawfulSegment sha256 ctx) := by
        apply Fallible.segments_bind (uploadAt_lawful _ _)
        exact fun _ => Fallible.segments_pure _
      split
      · apply Fallible.segments_bind (uploadBlob_lawful ⟨bytes, none⟩)
        exact fun _ => hrest
      · exact hrest
  | s3 versioningEnabled => exact putObjectS3_lawful _ _ _

theorem getObject_lawful (backend : Backend) (key : Text) :
  (getObject backend key).run.Segments (LawfulSegment sha256 ctx)
  := by
  apply Fallible.segments_bind (assertKeyInsideDrive_lawful _ _)
  exact fun _ => readAt_lawful _ _

theorem getObjectVersion_lawful (backend : Backend) (key versionId : Text) :
  (getObjectVersion backend key versionId).run.Segments (LawfulSegment sha256 ctx)
  := by
  cases backend with
  | «local» =>
      apply Fallible.segments_bind (assertKeyInsideDrive_lawful _ _)
      intro _
      apply Fallible.segments_bind (assertKeyInsideDrive_lawful _ _)
      exact fun _ => readAt_lawful _ _
  | s3 versioningEnabled =>
      apply segment_lawful
      intro w x
      split
      · exact ⟨lawful_fault w, rfl, rfl⟩
      · split
        · rename_i hobj
          exact ⟨.refl rfl ⟨rfl, rfl⟩ hobj.symm, rfl, rfl⟩
        · rename_i obj hobj
          exact ⟨.refl rfl ⟨rfl, rfl⟩ hobj.symm, rfl, rfl⟩

theorem deleteObject_lawful (backend : Backend) (key : Text) :
  (deleteObject backend key).run.Segments (LawfulSegment sha256 ctx)
  := by
  apply Fallible.segments_bind (assertKeyInsideDrive_lawful _ _)
  intro _
  apply segment_lawful
  intro w x
  split
  · exact ⟨lawful_fault w, rfl, rfl⟩
  · exact ⟨⟨rfl, ⟨rfl, rfl⟩, trivial⟩, rfl, rfl⟩

theorem copyObject_lawful (backend : Backend) (fromKey toKey : Text) :
  (copyObject sha256 backend fromKey toKey).run.Segments (LawfulSegment sha256 ctx)
  := by
  apply Fallible.segments_bind (assertKeyInsideDrive_lawful _ _)
  intro _
  apply Fallible.segments_bind (assertKeyInsideDrive_lawful _ _)
  intro _
  apply Fallible.segments_bind (getObject_lawful _ _)
  exact fun _ => putObject_lawful _ _ _ _

/-! ### The version functions -/

theorem assertExpectedVersion_lawful (ctx : OpContext) (path : Text) (expectedVersion : Int) :
  (assertExpectedVersion ctx path expectedVersion).run.Segments (LawfulSegment sha256 ctx)
  := by
  apply segment_lawful
  intro w x
  split
  · rename_i hmatch
    exact ⟨.refl rfl ⟨rfl, rfl⟩ (decide_eq_true hmatch).symm, rfl, rfl⟩
  · rename_i hmatch
    exact ⟨.refl rfl ⟨rfl, rfl⟩ (decide_eq_false hmatch).symm, rfl, rfl⟩

theorem checkExpectedVersion_lawful (ctx : OpContext) (path : Text)
    (expectedVersion : Option Int) :
  (checkExpectedVersion ctx path expectedVersion).run.Segments (LawfulSegment sha256 ctx)
  := by
  cases expectedVersion with
  | none => exact Fallible.segments_pure _
  | some e =>
      apply Fallible.segments_bind (assertExpectedVersion_lawful _ _ _)
      exact fun _ => Fallible.segments_pure _

theorem readHeadRow_lawful (ctx : OpContext) (path : Text) :
  (readHeadRow ctx path).run.Segments (LawfulSegment sha256 ctx)
  := segment_lawful (fun _ _ => ⟨.refl rfl ⟨rfl, rfl⟩ rfl, rfl, rfl⟩)

theorem getHeadContentHash_lawful (ctx : OpContext) (path : Text) :
  (getHeadContentHash ctx path).run.Segments (LawfulSegment sha256 ctx)
  := segment_lawful (fun _ _ => ⟨.refl rfl ⟨rfl, rfl⟩ rfl, rfl, rfl⟩)

theorem findVersion_lawful (ctx : OpContext) (path : Text) (version : Int) :
  (findVersion ctx path version).run.Segments (LawfulSegment sha256 ctx)
  := by
  apply segment_lawful
  intro w x
  split
  · rename_i row hrow
    exact ⟨.refl rfl ⟨rfl, rfl⟩ hrow.symm, rfl, rfl⟩
  · rename_i hrow
    exact ⟨.refl rfl ⟨rfl, rfl⟩ hrow.symm, rfl, rfl⟩

theorem recordVersion_lawful (ctx : OpContext) (params : VersionParams) (version : Nat) :
  (recordVersion ctx params version).run.Segments (LawfulSegment sha256 ctx)
  := by
  apply segment_lawful
  intro w x
  split
  · rename_i db hdb
    exact ⟨⟨rfl, createVersionTx_records hdb, trivial⟩, params, version, rfl, hdb⟩
  · exact ⟨.refl rfl ⟨rfl, rfl⟩ trivial, rfl⟩

theorem createVersion_lawful (ctx : OpContext) (params : VersionParams) :
  (createVersion ctx params).run.Segments (LawfulSegment sha256 ctx)
  := by
  apply Fallible.segments_bind
  · exact segment_lawful (fun _ _ => ⟨.refl rfl ⟨rfl, rfl⟩ rfl, rfl, rfl⟩)
  · intro version
    apply Fallible.segments_bind (recordVersion_lawful _ _ _)
    exact fun _ => Fallible.segments_pure _

/-! ### The operations -/

theorem afterCommit_lawful :
  afterCommit.run.Segments (LawfulSegment sha256 ctx)
  := by
  apply segment_lawful
  intro w x
  split
  · exact ⟨lawful_silent w, rfl, rfl⟩
  · exact ⟨lawful_silent w, rfl, rfl⟩

/-- The end of an operation: what follows the recorded version, and the answer. -/
theorem answer_lawful (answer : Response) :
  (do afterCommit; pure answer : Op Response).run.Segments (LawfulSegment sha256 ctx)
  := Fallible.segments_bind afterCommit_lawful (fun _ => Fallible.segments_pure _)

theorem storeVersion_lawful (ctx : OpContext) (path : Text) (operation : Operation)
    (bytes : Bytes) (message diffSummary : Option Text) :
  (storeVersion sha256 ctx path operation bytes message diffSummary).run.Segments (LawfulSegment sha256 ctx)
  := Fallible.segments_bind (putObject_lawful _ _ _ _) (fun _ => createVersion_lawful _ _)

theorem dedupVersion_lawful (ctx : OpContext) (path contentHash : Text)
    (expectedVersion : Option Int) :
  (dedupVersion ctx path contentHash expectedVersion).run.Segments (LawfulSegment sha256 ctx)
  := by
  cases expectedVersion with
  | none => exact Fallible.segments_pure _
  | some e =>
      apply Fallible.segments_bind (assertExpectedVersion_lawful _ _ _)
      intro current
      split
      · apply Fallible.segments_bind (getHeadContentHash_lawful _ _)
        exact fun _ => Fallible.segments_pure _
      · exact Fallible.segments_pure _

theorem writeInternal_lawful (ctx : OpContext) (params : WriteRawParams) (opts : WriteOpts) :
  (writeInternal sha256 ctx params opts).run.Segments (LawfulSegment sha256 ctx)
  := by
  unfold writeInternal
  dsimp only
  split
  · exact Fallible.segments_throw _
  · apply Fallible.segments_bind (dedupVersion_lawful _ _ _ _)
    intro deduped
    cases deduped with
    | some current => exact Fallible.segments_pure _
    | none =>
        apply Fallible.segments_bind (storeVersion_lawful _ _ _ _ _ _)
        exact fun _ => answer_lawful _

theorem edit_lawful (ctx : OpContext) (params : EditParams) :
  (edit sha256 ctx params).run.Segments (LawfulSegment sha256 ctx)
  := by
  apply Fallible.segments_bind (checkExpectedVersion_lawful _ _ _)
  intro _
  apply Fallible.segments_bind (Fallible.segments_mapError (getObject_lawful _ _))
  intro object
  dsimp only
  split
  · exact Fallible.segments_throw _
  · split
    · exact Fallible.segments_throw _
    · apply Fallible.segments_bind (storeVersion_lawful _ _ _ _ _ _)
      exact fun _ => answer_lawful _

theorem append_lawful (ctx : OpContext) (params : AppendParams) :
  (append sha256 ctx params).run.Segments (LawfulSegment sha256 ctx)
  := by
  apply Fallible.segments_bind (checkExpectedVersion_lawful _ _ _)
  intro _
  apply Fallible.segments_bind (Fallible.segments_mapError (getObject_lawful _ _))
  intro object
  apply Fallible.segments_bind (storeVersion_lawful _ _ _ _ _ _)
  exact fun _ => answer_lawful _

theorem revert_lawful (ctx : OpContext) (params : RevertParams) :
  (revert sha256 ctx params).run.Segments (LawfulSegment sha256 ctx)
  := by
  unfold revert
  dsimp only
  split
  · exact Fallible.segments_throw _
  · apply Fallible.segments_bind (checkExpectedVersion_lawful _ _ _)
    intro _
    apply Fallible.segments_bind (findVersion_lawful _ _ _)
    intro targetVersion
    split
    · exact Fallible.segments_throw _
    · apply Fallible.segments_bind (getObjectVersion_lawful _ _ _)
      intro oldContent
      apply Fallible.segments_bind (storeVersion_lawful _ _ _ _ _ _)
      exact fun _ => answer_lawful _

theorem copyVersion_lawful (ctx : OpContext) (source target message : Text) :
  (copyVersion sha256 ctx source target message).run.Segments (LawfulSegment sha256 ctx)
  := by
  apply Fallible.segments_bind (copyObject_lawful _ _ _)
  intro copyResult
  apply Fallible.segments_bind (getObject_lawful _ _)
  intro head
  apply Fallible.segments_bind (getObject_lawful _ _)
  exact fun _ => createVersion_lawful _ _

theorem deleteVersion_lawful (ctx : OpContext) (path : Text) (message : Option Text) :
  (deleteVersion ctx path message).run.Segments (LawfulSegment sha256 ctx)
  := by
  apply Fallible.segments_bind (deleteObject_lawful _ _)
  intro _
  apply Fallible.segments_bind (createVersion_lawful _ _)
  exact fun _ => Fallible.segments_pure _

theorem cp_lawful (ctx : OpContext) (params : CpParams) :
  (cp sha256 ctx params).run.Segments (LawfulSegment sha256 ctx)
  := by
  unfold cp
  dsimp only
  split
  · exact Fallible.segments_throw _
  · apply Fallible.segments_bind (checkExpectedVersion_lawful _ _ _)
    intro _
    apply Fallible.segments_bind (copyVersion_lawful _ _ _ _)
    exact fun _ => answer_lawful _

theorem mv_lawful (ctx : OpContext) (params : MvParams) :
  (mv sha256 ctx params).run.Segments (LawfulSegment sha256 ctx)
  := by
  unfold mv
  dsimp only
  split
  · exact Fallible.segments_throw _
  · apply Fallible.segments_bind (checkExpectedVersion_lawful _ _ _)
    intro _
    apply Fallible.segments_bind (copyVersion_lawful _ _ _ _)
    intro version
    apply Fallible.segments_bind (deleteVersion_lawful _ _ _)
    exact fun _ => answer_lawful _

theorem softDeleteComments_lawful (ctx : OpContext) (path : Text) :
  (softDeleteComments ctx path).run.Segments (LawfulSegment sha256 ctx)
  := by
  apply segment_lawful
  intro w x
  split
  · exact ⟨lawful_silent w, rfl, rfl⟩
  · exact ⟨⟨rfl, ⟨rfl, rfl⟩, trivial⟩, rfl, rfl⟩

theorem rm_lawful (ctx : OpContext) (params : RmParams) :
  (rm ctx params).run.Segments (LawfulSegment sha256 ctx)
  := by
  apply Fallible.segments_bind (checkExpectedVersion_lawful _ _ _)
  intro _
  apply Fallible.segments_bind (deleteVersion_lawful _ _ _)
  intro _
  apply Fallible.segments_bind (softDeleteComments_lawful _ _)
  exact fun _ => answer_lawful _

/-- Every segment of every request is lawful. -/
theorem program_lawful (ctx : OpContext) (request : Request) :
  (request.program sha256 ctx).run.Segments (LawfulSegment sha256 ctx)
  := by
  cases request with
  | write params => exact writeInternal_lawful _ _ _
  | writeRaw limit params => exact writeInternal_lawful _ _ _
  | edit params => exact edit_lawful _ _
  | append params => exact append_lawful _ _
  | revert params => exact revert_lawful _ _
  | cp params => exact cp_lawful _ _
  | mv params => exact mv_lawful _ _
  | rm params => exact rm_lawful _ _
  | openRead path =>
      apply Fallible.segments_bind (getObject_lawful _ _)
      intro object
      apply Fallible.segments_bind (readHeadRow_lawful _ _)
      exact fun _ => Fallible.segments_pure _
  | getRaw urlPath =>
      apply Fallible.segments_bind (Fallible.segments_mapError (getObject_lawful _ _))
      intro object
      apply Fallible.segments_bind (readHeadRow_lawful _ _)
      exact fun _ => Fallible.segments_pure _

/-- Every step of every run of a server is lawful. -/
theorem start_lawful (w : World) (requests : List (OpContext × Request))
    (sched : List (Nat × Input)) :
  (Server.start sha256 w requests).Admits (fun cf _ r => Lawful sha256 cf.state r) sched
  := by
  apply Pool.admits_of_always
  intro p hp
  obtain ⟨r, -, rfl⟩ := List.mem_map.mp hp
  exact always_lawful (program_lawful r.1 r.2)

end

end AgentFs

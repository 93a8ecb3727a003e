import Mathlib.Data.List.Nodup
import AgentFs.Ops.Blobs
import AgentFs.Ops.History

/-!
# Reverting on the local backend

The handle that `file_versions` records is the hash of what the request stored, and the
content-addressed copy of it stays.  So a revert stores what the version it goes back to
stored, in every order of the segments of the requests around it.
-/

namespace AgentFs

open Async

/-! ### Places of a drive -/

/-- The places of a drive are outside the reserved namespace. -/
theorem OpContext.not_reserved {ctx : OpContext} (hlocal : ctx.backend = .local)
    (horg : '/' ∉ ctx.orgId) (path : Text) :
  ¬ ReservedLoc (ctx.place path)
  := by
  have hkey : ctx.key path = ctx.orgId ++
      '/' :: ("drives".toList ++ '/' :: (ctx.driveId ++ ['/'] ++ stripLeadingSlash path)) := by
    simp [OpContext.key, getS3Key]
  have hslash : ∀ c ∈ ctx.orgId, decide (c = '/') = false := by
    intro c hc
    rw [decide_eq_false_iff_not]
    rintro rfl
    exact horg hc
  unfold OpContext.place
  rw [hlocal]
  show ¬ _ <+: ((ctx.key path).splitOnP (· = '/')).filter (· ≠ [])
  rw [hkey, List.splitOnP_append_cons_of_forall_mem hslash _ (by decide),
    List.splitOnP_append_cons_of_forall_mem (by simp) _ (by decide)]
  rintro ⟨rest, hrest⟩
  by_cases hempty : ctx.orgId = []
  · simp [hempty] at hrest
  · simp [hempty] at hrest

/-! ### The rows of a run -/

/-- Every request runs on the local backend, for an organisation whose id is one path
segment. -/
def AllLocal (requests : List (OpContext × Request)) : Prop :=
  ∀ r ∈ requests, r.1.backend = .local ∧ '/' ∉ r.1.orgId

/-- Request `j` committed the row, and unless it is a delete, the row holds the handle of
the object `obj` that the request stored. -/
def RecordedBy (sha256 : Bytes → Text) (requests : List (OpContext × Request)) (cf : Config)
    (row : FileVersionRow) (j : Nat) (obj : Obj) : Prop :=
  ∃ ctx request, requests[j]? = some (ctx, request) ∧ .commit row ∈ cf.own j ∧
    .storeObject (ctx.place row.path) obj ∈ cf.own j ∧ row.s3VersionId = sha256 obj.bytes

/-- The invariant of the rows. -/
structure RowInv (sha256 : Bytes → Text) (requests : List (OpContext × Request)) (cf : Config) :
    Prop where
  /-- A row is a delete without a handle, or holds the handle of what was stored. -/
  recorded : ∀ row ∈ cf.state.db.fileVersions,
    (row.operation = .delete ∧ row.s3VersionId = []) ∨
      ∃ j obj, RecordedBy sha256 requests cf row j obj
  /-- A row that a request has looked up is in the table. -/
  found : ∀ i driveId path version row,
    .readRow driveId path version (some row) ∈ cf.own i → row ∈ cf.state.db.fileVersions

section

variable {sha256 : Bytes → Text} {requests : List (OpContext × Request)} {cf : Config}
  {i : Nat} {r : Event × World}

/-- Histories grow. -/
theorem mem_own_push {j : Nat} {ev : Event} (hev : ev ∈ cf.own j) :
  ev ∈ (cf.push i r).own j
  := by
  rw [Conf.own_push]
  split
  · exact List.mem_cons_of_mem _ hev
  · exact hev

theorem RecordedBy.push {row : FileVersionRow} {j : Nat} {obj : Obj}
    (h : RecordedBy sha256 requests cf row j obj) :
  RecordedBy sha256 requests (cf.push i r) row j obj
  := by
  obtain ⟨ctx, request, hj, hcommit, hstore, hhandle⟩ := h
  exact ⟨ctx, request, hj, mem_own_push hcommit, mem_own_push hstore, hhandle⟩

/-- Rows are added and never removed. -/
theorem StepOf.mem_fileVersions (h : StepOf sha256 requests cf i r) {row : FileVersionRow}
    (hrow : row ∈ cf.state.db.fileVersions) :
  row ∈ r.2.db.fileVersions
  := by
  obtain ⟨row', -, hrec⟩ | ⟨-, hversions, -⟩ := h.lawful.tables_cases
  · rw [hrec.versions]
    exact List.mem_append_left _ hrow
  · rw [hversions]
    exact hrow

/-- The row that a step commits is recorded by the request that takes it. -/
theorem StepOf.recorded (h : StepOf sha256 requests cf i r) (hlocal : AllLocal requests)
    {row : FileVersionRow} (hrow : r.1 = .commit row) :
  (row.operation = .delete ∧ row.s3VersionId = []) ∨
    ∃ j obj, RecordedBy sha256 requests (cf.push i r) row j obj
  := by
  obtain ⟨ctx, request, hi, hobeys⟩ := h.obeys
  rw [hrow] at hobeys
  obtain ⟨-, -, -, hdoc | hdoc⟩ := hobeys
  · right
    obtain ⟨obj, hstore, hhandle⟩ := hdoc.handle (hlocal _ (List.mem_of_getElem? hi)).1
    refine ⟨i, obj, ctx, request, hi, ?_, mem_own_push hstore, hhandle⟩
    rw [Conf.own_push_self, hrow]
    exact List.mem_cons_self
  · exact .inl ⟨hdoc.operation, hdoc.handle⟩

theorem RowInv.step (hinv : RowInv sha256 requests cf) (h : StepOf sha256 requests cf i r)
    (hlocal : AllLocal requests) :
  RowInv sha256 requests (cf.push i r)
  := by
  constructor
  · intro row hrow
    have hold : row ∈ cf.state.db.fileVersions →
        (row.operation = .delete ∧ row.s3VersionId = []) ∨
          ∃ j obj, RecordedBy sha256 requests (cf.push i r) row j obj := by
      intro hmem
      obtain hdelete | ⟨j, obj, hrec⟩ := hinv.recorded row hmem
      · exact .inl hdelete
      · exact .inr ⟨j, obj, hrec.push⟩
    rw [Conf.push_state] at hrow
    obtain ⟨row', hcommit, hrec⟩ | ⟨-, hversions, -⟩ := h.lawful.tables_cases
    · rw [hrec.versions] at hrow
      obtain hrow | hrow := List.mem_append.mp hrow
      · exact hold hrow
      · rw [List.mem_singleton] at hrow
        subst hrow
        exact h.recorded hlocal hcommit
    · rw [hversions] at hrow
      exact hold hrow
  · intro j driveId path version row hread
    rw [Conf.push_state]
    apply h.mem_fileVersions
    by_cases hij : i = j
    · subst hij
      rw [Conf.own_push_self] at hread
      obtain hread | hread := List.mem_cons.mp hread
      · have hreads := h.lawful.reads
        rw [← hread] at hreads
        have hmem := List.mem_of_find?_eq_some hreads.symm
        exact (List.mem_filter.mp hmem).1
      · exact hinv.found i _ _ _ row hread
    · rw [Conf.own_push_of_ne hij] at hread
      exact hinv.found j _ _ _ row hread

/-- The requests keep the content-addressed copies. -/
theorem StepOf.keepsBlobs (h : StepOf sha256 requests cf i r) (hlocal : AllLocal requests)
    {trace : List (Nat × Event)} (hmem : (i, r.1) ∈ trace) :
  KeepsBlobs sha256 (storedContents trace) cf i r
  := by
  obtain ⟨ctx, request, hi, hobeys⟩ := h.obeys
  obtain ⟨hbackend, horg⟩ := hlocal _ (List.mem_of_getElem? hi)
  constructor
  · exact h.lawful
  · intro loc obj hr
    exact ⟨_, hmem, by rw [hr]; rfl⟩
  · intro loc obj hr
    rw [hr] at hobeys
    obtain ⟨-, -, -, hbacked, path, -, rfl⟩ := hobeys
    exact ⟨OpContext.not_reserved hbackend horg path, hbacked hbackend, _, hmem,
      by rw [hr]; rfl⟩
  · intro loc hr
    rw [hr] at hobeys
    obtain ⟨-, -, -, path, -, rfl⟩ := hobeys
    exact OpContext.not_reserved hbackend horg path

/-- A revert stores what the version it has looked up stored. -/
theorem StepOf.revert_stores (h : StepOf sha256 requests cf i r) (hlocal : AllLocal requests)
    {contents : Set Bytes} (hinj : Set.InjOn sha256 contents)
    (hblobs : BlobInv sha256 contents cf) (hrows : RowInv sha256 requests cf)
    {ctx : OpContext} {params : RevertParams} (hi : requests[i]? = some (ctx, .revert params))
    {loc : Loc} {obj : Obj} (hr : r.1 = .storeObject loc obj) :
  loc = ctx.place (normalizePath params.path) ∧ r.2.store.objects loc = some obj ∧
    ∃ row j stored,
      .readRow ctx.driveId (normalizePath params.path) params.version (some row) ∈ cf.own i ∧
      RecordedBy sha256 requests cf row j stored ∧ stored.bytes = obj.bytes
  := by
  obtain ⟨ctx', request, hi', hobeys⟩ := h.obeys
  rw [hi] at hi'
  cases hi'
  have hbackend : ctx.backend = .local := (hlocal _ (List.mem_of_getElem? hi)).1
  have hobjects := h.lawful.objects
  rw [hr] at hobeys hobjects
  obtain ⟨-, -, horigin, -, path, htarget, rfl⟩ := hobeys
  cases htarget
  refine ⟨rfl, by rw [hobjects]; exact Function.update_self .., ?_⟩
  obtain ⟨row, o, hread, hhandle, hfetch, hbytes⟩ := horigin.2 params rfl hbackend
  obtain ⟨-, hempty⟩ | ⟨j, stored, hrec⟩ := hrows.recorded row (hrows.found i _ _ _ row hread)
  · exact absurd hempty hhandle
  · refine ⟨row, j, stored, hread, hrec, ?_⟩
    obtain ⟨ctx', request, -, -, hstore, hsha⟩ := hrec
    rw [hsha] at hfetch
    obtain ⟨hhash, hmem⟩ := hblobs.fetched i stored.bytes o hfetch
    rw [← hbytes]
    exact hinj (hblobs.stored j _ _ hstore).2 hmem hhash.symm

end

/-! ### A revert alone -/

section

variable {sha256 : Bytes → Text} {w : World} {x : Input}

/-- A put that does not fail leaves its bytes at the place of its key, and the database. -/
theorem putObject_alone {key : Text} (hkey : KeyInsideDrive key) (hx : x.fail = false)
    (bytes : Bytes) (contentType : Option Text) :
  ∃ w', (putObject sha256 .local key bytes contentType).run.alone x w =
      (.ok ⟨some (sha256 bytes), some (sha256 bytes)⟩, w') ∧ w'.db = w.db ∧
    w'.store.objects (locate .local key) = some ⟨bytes, contentType⟩
  := by
  have hupload : ∀ (w : World) (loc : Loc) (obj : Obj),
      (uploadAt loc obj).run.alone x w = (.ok (), w.store! loc (some obj)) ∧
        (uploadBlob loc obj).run.alone x w = (.ok (), w.store! loc (some obj)) := by
    intro w loc obj
    unfold uploadAt uploadBlob
    rw [Fallible.alone_atomic, Fallible.alone_atomic]
    simp [hx]
  have hexists : ∀ loc : Loc,
      (existsAt loc).run.alone x w = (.ok (w.store.objects loc).isSome, w) := by
    intro loc
    unfold existsAt
    rw [Fallible.alone_atomic]
    simp [hx]
  unfold putObject
  rw [Fallible.alone_bind _ (assertKeyInsideDrive_alone hkey)]
  dsimp only
  rw [Fallible.alone_bind _ (hexists _)]
  split
  · rw [Fallible.alone_bind _ (hupload _ _ _).2, Fallible.alone_bind _ (hupload _ _ _).1]
    exact ⟨_, rfl, rfl, Function.update_self ..⟩
  · rw [Fallible.alone_bind _ (hupload _ _ _).1]
    exact ⟨_, rfl, rfl, Function.update_self ..⟩

/-- Recording a version leaves the object store. -/
theorem createVersion_store (ctx : OpContext) (params : VersionParams) :
  (createVersion ctx params).run.Always (fun w r => r.2.store = w.store)
  := by
  apply Fallible.always_bind
  · exact Fallible.always_atomic (fun _ _ => rfl)
  · intro version
    apply Fallible.always_bind
    · apply Fallible.always_atomic
      intro w x
      split
      · rfl
      · rfl
    · exact fun _ => Fallible.segments_pure _

theorem afterCommit_store :
  afterCommit.run.Always (fun w r => r.2.store = w.store)
  := by
  apply Fallible.always_atomic
  intro w x
  split
  · rfl
  · rfl

/-- A revert that runs alone on a world where the version is recorded with the handle of
`blob` leaves the bytes of `blob` at the place of the path. -/
theorem revert_alone (hhex : HexDigest sha256) {ctx : OpContext} {params : RevertParams}
    (hlocal : ctx.backend = .local) (hkey : KeyInsideDrive (ctx.key (normalizePath params.path)))
    (hx : x.fail = false)
    (hcheck : ∀ e, params.expectedVersion = some e →
      HeadMatches w.db ctx.driveId (normalizePath params.path) e)
    {row : FileVersionRow}
    (hrow : (w.db.versionsOf ctx.driveId (normalizePath params.path)).find?
      (fun r => (r.version : Int) = params.version) = some row)
    {bytes : Bytes} (hhandle : row.s3VersionId = sha256 bytes) {blob : Obj}
    (hblob : w.store.objects (locate .local (blobKey (sha256 bytes))) = some blob) :
  ∃ obj, ((revert sha256 ctx params).run.alone x w).2.store.objects
      (ctx.place (normalizePath params.path)) = some obj ∧ obj.bytes = blob.bytes
  := by
  have hchecked : (checkExpectedVersion ctx (normalizePath params.path)
      params.expectedVersion).run.alone x w = (.ok (), w) := by
    cases he : params.expectedVersion with
    | none => rfl
    | some e =>
        apply Fallible.alone_bind
        unfold assertExpectedVersion
        rw [Fallible.alone_atomic, if_pos (hcheck e he)]
  have hfind : (findVersion ctx (normalizePath params.path) params.version).run.alone x w =
      (.ok row, w) := by
    unfold findVersion
    rw [Fallible.alone_atomic, hrow]
  have hne : row.s3VersionId ≠ [] := by
    rw [hhandle]
    intro hnil
    have hlength := (hhex bytes).1
    rw [hnil] at hlength
    cases hlength
  have hfetch := getObjectVersion_alone hhex hkey hblob hx
  obtain ⟨w', hput, -, hobj⟩ := @putObject_alone sha256 w _ _ hkey hx blob.bytes
    (some (detectMimeType (normalizePath params.path)))
  refine ⟨⟨blob.bytes, some (detectMimeType (normalizePath params.path))⟩, ?_, rfl⟩
  unfold revert
  dsimp only
  rw [if_neg (by rw [hlocal]; decide), Fallible.alone_bind _ hchecked,
    Fallible.alone_bind _ hfind, if_neg hne, hlocal, hhandle, Fallible.alone_bind _ hfetch]
  have hrest : ∀ version : Nat, (do
      afterCommit
      pure (.reverted version params.version) : Op Response).run.Always
        (fun w r => r.2.store = w.store) := by
    intro version
    apply Fallible.always_bind afterCommit_store
    exact fun _ => Fallible.segments_pure _
  rw [Fallible.alone_bind_frame (v := World.store) _ hrest]
  unfold storeVersion
  dsimp only
  rw [hlocal, Fallible.alone_bind_frame (v := World.store) _ (fun _ => createVersion_store _ _),
    hput]
  unfold OpContext.place
  rw [hlocal]
  exact hobj

end

/-! ### Runs -/

section

variable {sha256 : Bytes → Text} {requests : List (OpContext × Request)}

/-- The history of the local backend before every step of a run, and after it. -/
theorem blobs_run (hhex : HexDigest sha256) (hlocal : AllLocal requests)
    (sched : List (Nat × Input)) :
  (Server.start sha256 World.empty requests).Admits (fun cf _ _ =>
      BlobInv sha256 (storedContents
          ((Server.start sha256 World.empty requests).run sched).conf.trace) cf ∧
        RowInv sha256 requests cf) sched ∧
    BlobInv sha256 (storedContents
        ((Server.start sha256 World.empty requests).run sched).conf.trace)
      ((Server.start sha256 World.empty requests).run sched).conf ∧
    RowInv sha256 requests ((Server.start sha256 World.empty requests).run sched).conf
  := by
  have htrace := (Server.start sha256 World.empty requests).admits_mem_trace sched
  have hsteps := Pool.admits_and.mpr ⟨start_steps sha256 World.empty requests sched, htrace⟩
  apply hsteps.inv (I := fun cf => BlobInv sha256 (storedContents
    ((Server.start sha256 World.empty requests).run sched).conf.trace) cf ∧
      RowInv sha256 requests cf)
  · rintro cf i r ⟨hstep, hmem⟩ ⟨hblobs, hrows⟩
    exact ⟨hblobs.step (hstep.keepsBlobs hlocal hmem) hhex, hrows.step hstep hlocal⟩
  · refine ⟨BlobInv.empty sha256 _ Db.empty, ?_⟩
    constructor
    · intro row hrow
      cases hrow
    · intro i driveId path version row hread
      cases hread

/-- The row of a version is the one a lookup finds. -/
theorem History.find_version {db : Db} (hhist : History db) {driveId path : Text}
    {row : FileVersionRow} (hrow : row ∈ db.versionsOf driveId path) :
  (db.versionsOf driveId path).find? (fun r => (r.version : Int) = (row.version : Int)) = some row
  := by
  obtain ⟨n, hn⟩ := hhist driveId path
  have hnodup : (db.versionNumbers driveId path).Nodup :=
    hn.numbers.nodup_iff.mpr List.nodup_range'
  cases hfind : (db.versionsOf driveId path).find?
      (fun r => (r.version : Int) = (row.version : Int)) with
  | none =>
      have hnone := List.find?_eq_none.mp hfind row hrow
      simp at hnone
  | some r =>
      have hmem := List.mem_of_find?_eq_some hfind
      have heq : r.version = row.version := by
        have hint := List.find?_some hfind
        rw [decide_eq_true_eq] at hint
        exact_mod_cast hint
      exact congrArg some (List.inj_on_of_nodup_map hnodup hmem hrow heq)

end

/-- The history of the local backend.

For calls of the adapter in any order of their segments, on keys outside the reserved
namespace, every handle that a call has returned for a key reads the bytes that the call
stored.

For requests in any order of their segments, whatever a revert stores is what the version
that it looked up stored; and after every run, a revert to a version that is not a delete
leaves the bytes that the version stored at the place of the path. -/
theorem local_history (sha256 : Bytes → Text) (hhex : HexDigest sha256) :
  (∀ (db : Db) (calls : List AdapterCall) (sched : List (Nat × Input)),
    (∀ call ∈ calls, ¬ Reserved call.dest) →
    Set.InjOn sha256
      (storedContents ((adapterPool sha256 ⟨db, .empty⟩ calls).run sched).conf.trace) →
    ∀ (i : Nat) (call : AdapterCall) (handle : Text), calls[i]? = some call →
      ((adapterPool sha256 ⟨db, .empty⟩ calls).run sched).result? i =
        some (.ok (some handle)) →
      ∃ obj, .storeObject (locate .local call.dest) obj ∈
          ((adapterPool sha256 ⟨db, .empty⟩ calls).run sched).conf.own i ∧
        (∀ key bytes contentType, call = .put key bytes contentType → obj.bytes = bytes) ∧
        ∀ x : Input, x.fail = false → ∃ blob : Obj,
          ((getObjectVersion .local call.dest handle).run.alone x
            ((adapterPool sha256 ⟨db, .empty⟩ calls).run sched).conf.state).1 = .ok blob ∧
          blob.bytes = obj.bytes) ∧
  ∀ (requests : List (OpContext × Request)) (sched : List (Nat × Input)),
    AllLocal requests →
    Set.InjOn sha256
      (storedContents ((Server.start sha256 World.empty requests).run sched).conf.trace) →
    (Server.start sha256 World.empty requests).Admits (fun cf i r =>
      ∀ ctx params loc obj, requests[i]? = some (ctx, .revert params) →
        r.1 = .storeObject loc obj →
        loc = ctx.place (normalizePath params.path) ∧ r.2.store.objects loc = some obj ∧
        ∃ row j stored,
          .readRow ctx.driveId (normalizePath params.path) params.version (some row) ∈
            cf.own i ∧
          RecordedBy sha256 requests cf row j stored ∧ stored.bytes = obj.bytes) sched ∧
    ∀ (ctx : OpContext) (params : RevertParams) (x : Input) (row : FileVersionRow),
      ctx.backend = .local → KeyInsideDrive (ctx.key (normalizePath params.path)) →
      x.fail = false →
      (∀ e, params.expectedVersion = some e → HeadMatches
        ((Server.start sha256 World.empty requests).run sched).conf.state.db ctx.driveId
        (normalizePath params.path) e) →
      row ∈ ((Server.start sha256 World.empty requests).run sched).conf.state.db.versionsOf
        ctx.driveId (normalizePath params.path) →
      (row.version : Int) = params.version → row.operation ≠ .delete →
      ∃ j stored obj,
        RecordedBy sha256 requests ((Server.start sha256 World.empty requests).run sched).conf
          row j stored ∧
        ((revert sha256 ctx params).run.alone x
          ((Server.start sha256 World.empty requests).run sched).conf.state).2.store.objects
          (ctx.place (normalizePath params.path)) = some obj ∧
        obj.bytes = stored.bytes
  := by
  constructor
  · intro db calls sched hcalls hinj i call handle hcall hresult
    exact adapter_handle hhex hcalls hinj hcall hresult
  · intro requests sched hlocal hinj
    obtain ⟨hadm, hblobs, hrows⟩ := blobs_run hhex hlocal sched
    constructor
    · have hsteps := Pool.admits_and.mpr
        ⟨start_steps sha256 World.empty requests sched, hadm⟩
      apply hsteps.mono
      rintro cf i r ⟨hstep, hblobs, hrows⟩ ctx params loc obj hi hr
      exact hstep.revert_stores hlocal hinj hblobs hrows hi hr
    · intro ctx params x row hbackend hkey hx hcheck hrow hversion hop
      have hmem := (List.mem_filter.mp hrow).1
      obtain ⟨hdelete, -⟩ | ⟨j, stored, hrec⟩ := hrows.recorded row hmem
      · exact absurd hdelete hop
      · obtain ⟨ctx', request, hj, hcommit, hstore, hhandle⟩ := hrec
        obtain ⟨blob, hblob, hbytes⟩ := hblobs.copy hinj hstore
        have hhist := @history_run sha256 .empty history_empty requests sched
        have hfind := hhist.2.history.find_version hrow
        rw [hversion] at hfind
        obtain ⟨obj, hobj, heq⟩ := revert_alone hhex hbackend hkey hx hcheck hfind hhandle hblob
        exact ⟨j, stored, obj, ⟨ctx', request, hj, hcommit, hstore, hhandle⟩, hobj,
          heq.trans hbytes⟩

/-- Two puts to `k`, and a delete of it. -/
def sampleCalls : List AdapterCall :=
  [.put "k".toList [97] none, .put "k".toList [98] none, .delete "k".toList]

/-- Two writes to `/f` and a revert to the first of them. -/
def sampleRevert : List (OpContext × Request) :=
  [sampleWrite [97] none, sampleWrite [98] none,
    (sampleContext, .revert { path := "/f".toList, version := 1 })]

/-- The requests of `sampleRevert`, one after the other. -/
def sampleRevertSchedule : List (Nat × Input) :=
  [0, 0, 0, 0, 0, 0, 1, 1, 1, 1, 1, 1, 2, 2, 2, 2, 2, 2, 2].map (·, sampleInput)

theorem local_history_sampleRevert :
  (∃ blob : Obj, ((getObjectVersion .local "k".toList (sampleHash [97])).run.alone sampleInput
      ((adapterPool sampleHash World.empty sampleCalls).run
        ([0, 0, 0, 1, 1, 1, 2].map (·, sampleInput))).conf.state).1 = .ok blob ∧
      blob.bytes = [97]) ∧
    ((Server.start sampleHash World.empty sampleRevert).run sampleRevertSchedule).result? 2 =
      some (.ok (.reverted 3 1)) ∧
    ∃ row j stored obj, row.version = 2 ∧
      RecordedBy sampleHash sampleRevert
        ((Server.start sampleHash World.empty sampleRevert).run sampleRevertSchedule).conf
        row j stored ∧
      ((revert sampleHash sampleContext { path := "/f".toList, version := 2 }).run.alone
        sampleInput ((Server.start sampleHash World.empty sampleRevert).run
          sampleRevertSchedule).conf.state).2.store.objects
        (sampleContext.place (normalizePath "/f".toList)) = some obj ∧
      obj.bytes = stored.bytes
  := by
  obtain ⟨hadapter, hrequests⟩ := local_history sampleHash sampleHash_hexDigest
  refine ⟨?_, by decide +kernel, ?_⟩
  · obtain ⟨obj, -, hput, hread⟩ := hadapter Db.empty sampleCalls
      ([0, 0, 0, 1, 1, 1, 2].map (·, sampleInput)) (by decide)
      (sampleHash_injOn (by decide +kernel)) 0 (.put "k".toList [97] none) (sampleHash [97]) rfl
      (by decide +kernel)
    obtain ⟨blob, hblob, hbytes⟩ := hread sampleInput rfl
    exact ⟨blob, hblob, hbytes.trans (hput _ _ _ rfl)⟩
  · have hlocal : AllLocal sampleRevert := by
      intro r hr
      simp only [sampleRevert, sampleWrite, List.mem_cons, List.not_mem_nil, or_false] at hr
      obtain rfl | rfl | rfl := hr
      · decide
      · decide
      · decide
    obtain ⟨-, halone⟩ := hrequests sampleRevert sampleRevertSchedule hlocal
      (sampleHash_injOn (by decide +kernel))
    have hfind : ∃ row ∈ ((Server.start sampleHash World.empty sampleRevert).run
        sampleRevertSchedule).conf.state.db.versionsOf sampleContext.driveId
          (normalizePath "/f".toList), row.version = 2 ∧ row.operation ≠ .delete := by
      decide +kernel
    obtain ⟨row, hrow, hversion, hop⟩ := hfind
    obtain ⟨j, stored, obj, hrec, hobj, hbytes⟩ := halone sampleContext
      { path := "/f".toList, version := 2 } sampleInput row rfl (by decide) rfl
      (by simp) hrow (by rw [hversion]; rfl) hop
    dsimp only at hobj
    exact ⟨row, j, stored, obj, hversion, hrec, hobj, hbytes⟩

end AgentFs

import AgentFs.Ops.History

/-!
# Head and object

An operation changes the object of a path first and records the version afterwards.  When
two operations on one path overlap in between, the versions may be recorded in the other
order than the objects were stored, and the object no longer is the one the head
describes.  The two agree whenever no operation is in flight, as long as changes of one
path do not overlap and none of them is interrupted.
-/

namespace AgentFs

open Async

/-- The head row of the path describes the object stored under its key: no object for a
delete, else an object with the recorded hash. -/
def Agrees (sha256 : Bytes → Text) (ctx : OpContext) (w : World) (path : Text) : Prop :=
  ∀ row, getHeadVersionRow w.db ctx.driveId path = some row →
    (row.operation = .delete → w.store.objects (ctx.place path) = none) ∧
      (row.operation ≠ .delete → ∃ obj, w.store.objects (ctx.place path) = some obj ∧
        row.contentHash = some (sha256 obj.bytes))

/-- Two writes to `/f` that store and record in opposite orders. -/
def sampleOverlap : Server :=
  (Server.start sampleHash World.empty [sampleWrite [97] none, sampleWrite [98] none]).run
    ([0, 0, 0, 1, 1, 1, 1, 1, 1, 0, 0, 0].map (·, sampleInput))

instance (P : Server) : Decidable P.Quiet :=
  inferInstanceAs (Decidable (∀ p ∈ P.procs, p.result?.isSome))

/-- No operation is in flight, the head describes `a`, and the object is `b`. -/
theorem not_agrees_sampleOverlap :
  sampleOverlap.Quiet ∧
    ¬ Agrees sampleHash sampleContext sampleOverlap.conf.state "/f".toList
  := by
  refine ⟨by decide +kernel, fun h => ?_⟩
  have hhead : (getHeadVersionRow sampleOverlap.conf.state.db sampleContext.driveId
      "/f".toList).map (fun r => (r.operation, r.contentHash)) =
        some (.write, some (sampleHash [97])) := by decide +kernel
  have hobject : (sampleOverlap.conf.state.store.objects
      (sampleContext.place "/f".toList)).map (·.bytes) = some [98] := by decide +kernel
  obtain ⟨row, hrow, hcols⟩ := Option.map_eq_some_iff.mp hhead
  obtain ⟨hop, hrowHash⟩ := Prod.mk.inj hcols
  obtain ⟨obj, hobj, hhash⟩ := (h row hrow).2 (by simp [hop])
  rw [hobj, Option.map_some, Option.some.injEq] at hobject
  rw [hrowHash, hobject] at hhash
  exact absurd hhash (by decide +kernel)

/-! ### The exact condition -/

/-- The path whose change an event of the request opens. -/
def Request.opens (request : Request) : Event → Option Text
  | .storeObject _ _ => request.target?
  | .removeObject _ => request.removed?
  | _ => none

/-- The paths a request writes. -/
def Request.written (request : Request) : List Text :=
  request.target?.toList ++ request.removed?.toList

instance (ctx : OpContext) (path : Text) (h : List Event) : Decidable (ctx.Pending path h) :=
  inferInstanceAs (Decidable (_ = some true))

instance (ev : Event) : Decidable ev.Interrupts :=
  match ev with
  | .fault | .readObject _ none | .abort .. => isTrue trivial
  | .silent | .probe .. | .readObject _ (some _) | .readVersion .. | .storeBlob .. | .storeObject ..
  | .removeObject .. | .checkVersion .. | .readHead .. | .readRow .. | .allocate ..
  | .commit .. => isFalse id

/-- The condition on the steps of a run: a request changes the object of a path only while
no other request has changed it without recording a version, and no request is interrupted
between its change and its record. -/
def AgreementStep (requests : List (OpContext × Request)) : StepProp World Event :=
  fun cf i r => ∀ c ∈ requests[i]?,
    (∀ path ∈ c.2.opens r.1, ∀ j < requests.length, j ≠ i → ¬ c.1.Pending path (cf.own j)) ∧
      (r.1.Interrupts → ∀ path ∈ c.2.written, ¬ c.1.Pending path (cf.own i))

instance (requests : List (OpContext × Request)) (cf : Config) (i : Nat) (r : Event × World) :
    Decidable (AgreementStep requests cf i r) :=
  inferInstanceAs (Decidable (∀ c ∈ requests[i]?, _))

/-- The requests are all on the drive of `ctx`. -/
def OnDrive (ctx : OpContext) (requests : List (OpContext × Request)) : Prop :=
  ∀ c ∈ requests, c.1.orgId = ctx.orgId ∧ c.1.driveId = ctx.driveId ∧ c.1.backend = ctx.backend

/-- The paths in use: those the requests write and those that have a version in `db`. -/
def InUse (ctx : OpContext) (requests : List (OpContext × Request)) (db : Db) (path : Text) :
    Prop :=
  (∃ c ∈ requests, path ∈ c.2.written) ∨
    ∃ row ∈ db.fileVersions, row.driveId = ctx.driveId ∧ row.path = path

/-- No two paths in use share a place, and none shares one with a content-addressed
copy. -/
structure Distinct (sha256 : Bytes → Text) (ctx : OpContext) (used : Text → Prop) : Prop where
  paths : ∀ p q, used p → used q → ctx.place p = ctx.place q → p = q
  blobs : ∀ p, used p → ∀ bytes, ctx.place p ≠ locate .local (blobKey (sha256 bytes))

/-! ### What a step does to one path -/

section

variable {sha256 : Bytes → Text} {ctx : OpContext} {requests : List (OpContext × Request)}
  {used : Text → Prop} {cf : Config} {i : Nat} {r : Event × World} {path : Text}

theorem OnDrive.place (h : OnDrive ctx requests) {c : OpContext} {request : Request}
    (hi : requests[i]? = some (c, request)) (path : Text) :
  c.place path = ctx.place path
  := by
  obtain ⟨horg, hdrive, hbackend⟩ := h _ (List.mem_of_getElem? hi)
  unfold OpContext.place OpContext.key
  rw [horg, hdrive, hbackend]

theorem OnDrive.pending (h : OnDrive ctx requests) {c : OpContext} {request : Request}
    (hi : requests[i]? = some (c, request)) {path : Text} {hist : List Event} :
  c.Pending path hist ↔ ctx.Pending path hist
  := by
  unfold OpContext.Pending
  rw [h.place hi]

/-- The user plays no part in the order of a request. -/
theorem OnDrive.obeys (h : OnDrive ctx requests) {c : OpContext} {request : Request}
    (hi : requests[i]? = some (c, request)) {hist : List Event} {ev : Event}
    (hobeys : Obeys sha256 c request hist ev) :
  Obeys sha256 ctx request hist ev
  := by
  obtain ⟨horg, hdrive, hbackend⟩ := h _ (List.mem_of_getElem? hi)
  obtain ⟨orgId, driveId, userId, backend⟩ := ctx
  obtain ⟨orgId', driveId', userId', backend'⟩ := c
  dsimp only at horg hdrive hbackend
  subst horg hdrive hbackend
  cases ev with
  | commit row =>
      obtain ⟨hhead, hdriveId, hpending, hdoc⟩ := hobeys
      refine ⟨hhead, hdriveId, hpending, ?_⟩
      obtain hstore | hdelete := hdoc
      · exact .inl ⟨hstore.operation, hstore.target, hstore.hash, hstore.handle⟩
      · exact .inr ⟨hdelete.operation, hdelete.removed, hdelete.seen, hdelete.handle⟩
  | _ => exact hobeys

theorem pending_cons {ev : Event} {h : List Event} :
  ctx.Pending path (ev :: h) ↔ ev.marks (ctx.place path) path = some true ∨
    (ev.marks (ctx.place path) path = none ∧ ctx.Pending path h)
  := by
  unfold OpContext.Pending
  rw [List.findSome?_cons]
  cases ev.marks (ctx.place path) path with
  | none => simp
  | some b => simp

/-- What a step of a request does to a path in use. -/
inductive PathStep (sha256 : Bytes → Text) (ctx : OpContext)
    (requests : List (OpContext × Request)) (path : Text) (cf : Config) (i : Nat)
    (r : Event × World) : Prop where
  /-- It changes the object. -/
  | opens (c : OpContext) (request : Request) (hi : requests[i]? = some (c, request))
      (hopens : request.opens r.1 = some path)
      (hmarks : r.1.marks (ctx.place path) path = some true)
      (hseen : r.1.seen (ctx.place path) = some (r.2.store.objects (ctx.place path)))
  /-- It records a version of what the request has last seen. -/
  | records (row : FileVersionRow) (hrow : r.1 = .commit row) (hpath : row.path = path)
      (hpending : ctx.Pending path (cf.own i))
      (hobjects : r.2.store.objects = cf.state.store.objects)
      (hhead : getHeadVersionRow r.2.db ctx.driveId path = some row)
      (hdoc : (row.operation = .delete ∧ lastSeen (ctx.place path) (cf.own i) = some none) ∨
        (row.operation ≠ .delete ∧ ∃ obj, lastSeen (ctx.place path) (cf.own i) = some (some obj) ∧
          row.contentHash = some (sha256 obj.bytes)))
  /-- It leaves the object and the head. -/
  | leaves (hmarks : r.1.marks (ctx.place path) path = none)
      (hseen : r.1.seen (ctx.place path) = none ∨
        r.1.seen (ctx.place path) = some (cf.state.store.objects (ctx.place path)))
      (hobject : r.2.store.objects (ctx.place path) = cf.state.store.objects (ctx.place path))
      (hhead : getHeadVersionRow r.2.db ctx.driveId path =
        getHeadVersionRow cf.state.db ctx.driveId path)

/-- An event that neither changes objects nor records a version leaves every path. -/
theorem StepOf.leaves (h : StepOf sha256 requests cf i r) (hev : ¬ r.1.Changes)
    (hdistinct : Distinct sha256 ctx used) (hused : used path) :
  PathStep sha256 ctx requests path cf i r
  := by
  have hreads := h.lawful.reads
  have hobjects := h.lawful.objects
  refine .leaves (Event.marks_of_not_changes hev _ _) ?_ ?_ ?_
  · cases hr : r.1 with
    | readObject loc obj =>
        rw [hr] at hreads
        by_cases hloc : loc = ctx.place path
        · right
          subst hloc
          have hobj : obj = cf.state.store.objects (ctx.place path) := hreads
          simp [Event.seen, hobj]
        · left
          simp [Event.seen, hloc]
    | storeBlob loc obj =>
        rw [hr] at hreads
        have hloc : loc = locate .local (blobKey (sha256 obj.bytes)) := hreads
        left
        have hne := hdistinct.blobs path hused obj.bytes
        simp [Event.seen, hloc, hne.symm]
    | storeObject loc obj =>
        rw [hr] at hev
        exact absurd trivial hev
    | removeObject loc =>
        rw [hr] at hev
        exact absurd trivial hev
    | _ => exact .inl rfl
  · rw [hobjects]
    cases hr : r.1 with
    | storeBlob loc obj =>
        rw [hr] at hreads
        have hloc : loc = locate .local (blobKey (sha256 obj.bytes)) := hreads
        have hne := hdistinct.blobs path hused obj.bytes
        simp [Event.applyObjects, Function.update, hloc, hne]
    | storeObject loc obj =>
        rw [hr] at hev
        exact absurd trivial hev
    | removeObject loc =>
        rw [hr] at hev
        exact absurd trivial hev
    | _ => rfl
  · apply getHeadVersionRow_congr
    obtain ⟨row, hrow, -⟩ | ⟨-, hversions, -⟩ := h.lawful.tables_cases
    · rw [hrow] at hev
      exact absurd trivial hev
    · exact hversions

/-- An event that changes the object of a written path opens that path and leaves the
others. -/
theorem StepOf.opens (h : StepOf sha256 requests cf i r) {c : OpContext} {request : Request}
    (hi : requests[i]? = some (c, request)) (target : Text) (obj : Option Obj)
    (hopens : request.opens r.1 = some target)
    (hmarks : ∀ loc p, r.1.marks loc p = if ctx.place target = loc then some true else none)
    (hseen : ∀ loc, r.1.seen loc = if ctx.place target = loc then some obj else none)
    (hobjects : r.2.store.objects =
      Function.update cf.state.store.objects (ctx.place target) obj)
    (hcommit : ∀ row, r.1 ≠ .commit row)
    (hdistinct : Distinct sha256 ctx used) (htarget : used target) (hused : used path) :
  PathStep sha256 ctx requests path cf i r
  := by
  by_cases hpath : target = path
  · subst hpath
    apply PathStep.opens c request hi hopens
    · rw [hmarks, if_pos rfl]
    · rw [hseen, if_pos rfl, hobjects, Function.update_self]
  · have hplace : ctx.place target ≠ ctx.place path :=
      fun hplace => hpath (hdistinct.paths _ _ htarget hused hplace)
    apply PathStep.leaves
    · rw [hmarks, if_neg hplace]
    · rw [hseen, if_neg hplace]
      exact .inl rfl
    · rw [hobjects, Function.update_of_ne hplace.symm]
    · apply getHeadVersionRow_congr
      obtain ⟨row, hrow, -⟩ | ⟨-, hversions, -⟩ := h.lawful.tables_cases
      · exact absurd hrow (hcommit row)
      · exact hversions

/-- Every step is one of the three. -/
theorem StepOf.pathStep (h : StepOf sha256 requests cf i r) (hhist : HistoryInv cf)
    (hdrive : OnDrive ctx requests) (hdistinct : Distinct sha256 ctx used)
    (hwritten : ∀ c ∈ requests, ∀ p ∈ c.2.written, used p) (hused : used path) :
  PathStep sha256 ctx requests path cf i r
  := by
  obtain ⟨c, request, hi, hobeys⟩ := h.obeys
  have hmem := List.mem_of_getElem? hi
  have hplace := fun p => hdrive.place hi p
  cases hr : r.1 with
  | storeObject loc obj =>
      have hobjects := h.lawful.objects
      rw [hr] at hobeys hobjects
      obtain ⟨-, -, -, -, target, htarget, rfl⟩ := hobeys
      apply StepOf.opens h hi target (some obj)
      · rw [hr]
        exact htarget
      · simp [hr, Event.marks, hplace]
      · simp [hr, Event.seen, hplace]
      · rw [hobjects, Event.applyObjects, hplace]
      · simp [hr]
      · exact hdistinct
      · exact hwritten _ hmem _ (by simp [Request.written, htarget])
      · exact hused
  | removeObject loc =>
      have hobjects := h.lawful.objects
      rw [hr] at hobeys hobjects
      obtain ⟨-, -, -, removed, hremoved, rfl⟩ := hobeys
      apply StepOf.opens h hi removed none
      · rw [hr]
        exact hremoved
      · simp [hr, Event.marks, hplace]
      · simp [hr, Event.seen, hplace]
      · rw [hobjects, Event.applyObjects, hplace]
      · simp [hr]
      · exact hdistinct
      · exact hwritten _ hmem _ (by simp [Request.written, hremoved])
      · exact hused
  | commit row =>
      have hobjects := h.lawful.objects
      have hrec := h.lawful.tables
      rw [hr] at hobeys hobjects hrec
      obtain ⟨-, hrowDrive, hpending, hdoc⟩ := hobeys
      have hctxDrive : row.driveId = ctx.driveId :=
        hrowDrive.trans (hdrive _ hmem).2.1
      by_cases hpath : row.path = path
      · subst hpath
        apply PathStep.records row hr rfl
        · exact (hdrive.pending hi).mp hpending
        · exact hobjects
        · rw [← hctxDrive]
          exact Records.head_self hrec (h.commit_version hhist hr).ge
        · obtain hstore | hdelete := hdoc
          · right
            rw [← hplace]
            exact ⟨hstore.operation, hstore.hash⟩
          · left
            rw [← hplace]
            exact ⟨hdelete.operation, hdelete.seen⟩
      · apply PathStep.leaves
        · simp [hr, Event.marks, hpath]
        · left
          rw [hr]
          rfl
        · rw [hobjects]
          rfl
        · exact Records.head_other hrec (fun hkey => hpath hkey.1.symm)
  | _ => exact h.leaves (by simp [hr, Event.Changes]) hdistinct hused

/-! ### The invariant -/

/-- The invariant of a path in use. -/
structure PathInv (sha256 : Bytes → Text) (ctx : OpContext)
    (requests : List (OpContext × Request)) (path : Text) (cf : Config) : Prop where
  /-- Only a request that writes the path has an open change of it. -/
  mine : ∀ i, ctx.Pending path (cf.own i) →
    ∃ c request, requests[i]? = some (c, request) ∧ path ∈ request.written
  /-- At most one change is open. -/
  one : ∀ i j, ctx.Pending path (cf.own i) → ctx.Pending path (cf.own j) → i = j
  /-- The object is what the request with the open change has last seen. -/
  held : ∀ i, ctx.Pending path (cf.own i) →
    lastSeen (ctx.place path) (cf.own i) = some (cf.state.store.objects (ctx.place path))
  /-- Without an open change, head and object agree. -/
  free : (∀ i, ¬ ctx.Pending path (cf.own i)) → Agrees sha256 ctx cf.state path
  /-- No interrupted request has an open change. -/
  unbroken : ∀ i ev, (cf.own i).head? = some ev → ev.Interrupts → ¬ ctx.Pending path (cf.own i)

theorem Event.Interrupts.not_changes {ev : Event} (hev : ev.Interrupts) :
  ¬ ev.Changes
  := by
  cases ev <;> first | exact hev.elim | exact not_false

theorem Request.opens_mem_written {request : Request} {ev : Event}
    (h : request.opens ev = some path) :
  path ∈ request.written
  := by
  cases ev with
  | storeObject loc obj => simp [written, show request.target? = some path from h]
  | removeObject loc => simp [written, show request.removed? = some path from h]
  | _ => cases h

/-- The condition on a step, read for the request that takes it and the drive. -/
theorem AgreementStep.of_drive (hcond : AgreementStep requests cf i r)
    (hdrive : OnDrive ctx requests) {c : OpContext} {request : Request}
    (hi : requests[i]? = some (c, request)) :
  (∀ path, request.opens r.1 = some path → ∀ j, j < requests.length → j ≠ i →
      ¬ ctx.Pending path (cf.own j)) ∧
    (r.1.Interrupts → ∀ path ∈ request.written, ¬ ctx.Pending path (cf.own i))
  := by
  obtain ⟨hopens, hinterrupts⟩ := hcond (c, request) (by simp [hi])
  constructor
  · intro path hpath j hlt hj hpending
    exact hopens path hpath j hlt hj ((hdrive.pending hi).mpr hpending)
  · intro hev path hpath hpending
    exact hinterrupts hev path hpath ((hdrive.pending hi).mpr hpending)

/-- A request that opens a change while no other is open. -/
theorem PathInv.opens (hinv : PathInv sha256 ctx requests path cf) {c : OpContext}
    {request : Request} (hi : requests[i]? = some (c, request))
    (hopens : request.opens r.1 = some path)
    (hmarks : r.1.marks (ctx.place path) path = some true)
    (hseen : r.1.seen (ctx.place path) = some (r.2.store.objects (ctx.place path)))
    (hothers : ∀ j, j < requests.length → j ≠ i → ¬ ctx.Pending path (cf.own j)) :
  PathInv sha256 ctx requests path (cf.push i r)
  := by
  have hself : ctx.Pending path ((cf.push i r).own i) := by
    rw [Conf.own_push_self]
    exact pending_cons.mpr (.inl hmarks)
  have honly : ∀ j, ctx.Pending path ((cf.push i r).own j) → j = i := by
    intro j hj
    by_contra hne
    rw [Conf.own_push_of_ne (Ne.symm hne)] at hj
    obtain ⟨c', request', hj', -⟩ := hinv.mine j hj
    exact hothers j (List.getElem?_eq_some_iff.mp hj').1 hne hj
  constructor
  · intro j hj
    rw [honly j hj]
    exact ⟨c, request, hi, Request.opens_mem_written hopens⟩
  · intro j k hj hk
    rw [honly j hj, honly k hk]
  · intro j hj
    rw [honly j hj, Conf.own_push_self]
    exact lastSeen_cons_of_some hseen
  · intro hnone
    exact absurd hself (hnone i)
  · intro j ev hhead hev hj
    rw [honly j hj, Conf.own_push_self, List.head?_cons, Option.some.injEq] at hhead
    rw [← hhead] at hev
    rw [Event.marks_of_not_changes hev.not_changes] at hmarks
    cases hmarks

/-- A request that records its change. -/
theorem PathInv.records (hinv : PathInv sha256 ctx requests path cf) {row : FileVersionRow}
    (hrow : r.1 = .commit row) (hpath : row.path = path)
    (hpending : ctx.Pending path (cf.own i))
    (hobjects : r.2.store.objects = cf.state.store.objects)
    (hhead : getHeadVersionRow r.2.db ctx.driveId path = some row)
    (hdoc : (row.operation = .delete ∧ lastSeen (ctx.place path) (cf.own i) = some none) ∨
      (row.operation ≠ .delete ∧ ∃ obj, lastSeen (ctx.place path) (cf.own i) = some (some obj) ∧
        row.contentHash = some (sha256 obj.bytes))) :
  PathInv sha256 ctx requests path (cf.push i r)
  := by
  have hnone : ∀ j, ¬ ctx.Pending path ((cf.push i r).own j) := by
    intro j hj
    by_cases hij : i = j
    · subst hij
      rw [Conf.own_push_self, hrow] at hj
      exact (pending_commit.mp hj).1 hpath
    · rw [Conf.own_push_of_ne hij] at hj
      exact hij (hinv.one i j hpending hj)
  have hheld := hinv.held i hpending
  constructor
  · intro j hj
    exact absurd hj (hnone j)
  · intro j k hj
    exact absurd hj (hnone j)
  · intro j hj
    exact absurd hj (hnone j)
  · intro _ row' hrow'
    obtain rfl : row = row' := Option.some.inj (hhead.symm.trans hrow')
    rw [Conf.push_state, hobjects]
    obtain ⟨hop, hseen⟩ | ⟨hop, obj, hseen, hhash⟩ := hdoc
    · rw [hheld, Option.some.injEq] at hseen
      exact ⟨fun _ => hseen, fun hne => absurd hop hne⟩
    · rw [hheld, Option.some.injEq] at hseen
      exact ⟨fun hdel => absurd hdel hop, fun _ => ⟨obj, hseen, hhash⟩⟩
  · intro j ev _ _
    exact hnone j

/-- A step that leaves the path. -/
theorem PathInv.leaves (hinv : PathInv sha256 ctx requests path cf)
    (hmarks : r.1.marks (ctx.place path) path = none)
    (hseen : r.1.seen (ctx.place path) = none ∨
      r.1.seen (ctx.place path) = some (cf.state.store.objects (ctx.place path)))
    (hobject : r.2.store.objects (ctx.place path) = cf.state.store.objects (ctx.place path))
    (hhead : getHeadVersionRow r.2.db ctx.driveId path =
      getHeadVersionRow cf.state.db ctx.driveId path)
    (hbroken : r.1.Interrupts → ¬ ctx.Pending path (cf.own i)) :
  PathInv sha256 ctx requests path (cf.push i r)
  := by
  have hsame : ∀ j, ctx.Pending path ((cf.push i r).own j) ↔ ctx.Pending path (cf.own j) := by
    intro j
    by_cases hij : i = j
    · subst hij
      rw [Conf.own_push_self, pending_cons, hmarks]
      simp
    · rw [Conf.own_push_of_ne hij]
  constructor
  · intro j hj
    exact hinv.mine j ((hsame j).mp hj)
  · intro j k hj hk
    exact hinv.one j k ((hsame j).mp hj) ((hsame k).mp hk)
  · intro j hj
    have hheld := hinv.held j ((hsame j).mp hj)
    rw [Conf.push_state, hobject]
    by_cases hij : i = j
    · subst hij
      rw [Conf.own_push_self]
      obtain hseen | hseen := hseen
      · rw [lastSeen_cons_of_none hseen]
        exact hheld
      · exact lastSeen_cons_of_some hseen
    · rw [Conf.own_push_of_ne hij]
      exact hheld
  · intro hnone
    have hagrees := hinv.free (fun j hj => hnone j ((hsame j).mpr hj))
    unfold Agrees at hagrees ⊢
    rw [Conf.push_state, hhead, hobject]
    exact hagrees
  · intro j ev hevhead hev
    rw [hsame]
    by_cases hij : i = j
    · subst hij
      rw [Conf.own_push_self, List.head?_cons, Option.some.injEq] at hevhead
      exact hbroken (hevhead ▸ hev)
    · rw [Conf.own_push_of_ne hij] at hevhead
      exact hinv.unbroken j ev hevhead hev

/-- Every step that meets the condition keeps the invariant of a path in use. -/
theorem PathInv.step (hinv : PathInv sha256 ctx requests path cf)
    (h : StepOf sha256 requests cf i r) (hhist : HistoryInv cf)
    (hcond : AgreementStep requests cf i r) (hdrive : OnDrive ctx requests)
    (hdistinct : Distinct sha256 ctx used)
    (hwritten : ∀ c ∈ requests, ∀ p ∈ c.2.written, used p) (hused : used path) :
  PathInv sha256 ctx requests path (cf.push i r)
  := by
  cases h.pathStep hhist hdrive hdistinct hwritten hused with
  | opens c request hi hopens hmarks hseen =>
      exact hinv.opens hi hopens hmarks hseen ((hcond.of_drive hdrive hi).1 path hopens)
  | records row hrow hpath hpending hobjects hhead hdoc =>
      exact hinv.records hrow hpath hpending hobjects hhead hdoc
  | leaves hmarks hseen hobject hhead =>
      apply hinv.leaves hmarks hseen hobject hhead
      intro hev hpending
      obtain ⟨c, request, hi, hmem⟩ := hinv.mine i hpending
      exact (hcond.of_drive hdrive hi).2 hev path hmem hpending

/-- The invariant of a run. -/
structure AgreementInv (sha256 : Bytes → Text) (ctx : OpContext)
    (requests : List (OpContext × Request)) (used : Text → Prop) (cf : Config) : Prop where
  history : HistoryInv cf
  /-- Every path of the drive with a version is in use. -/
  rows : ∀ row ∈ cf.state.db.fileVersions, row.driveId = ctx.driveId → used row.path
  paths : ∀ path, used path → PathInv sha256 ctx requests path cf

/-- A commit is on a path the request writes. -/
theorem StepOf.commit_written (h : StepOf sha256 requests cf i r) {row : FileVersionRow}
    (hrow : r.1 = .commit row) :
  ∃ c ∈ requests, row.path ∈ c.2.written
  := by
  obtain ⟨c, request, hi, hobeys⟩ := h.obeys
  rw [hrow] at hobeys
  obtain ⟨-, -, -, hstore | hdelete⟩ := hobeys
  · exact ⟨(c, request), List.mem_of_getElem? hi, by simp [Request.written, hstore.target]⟩
  · exact ⟨(c, request), List.mem_of_getElem? hi, by simp [Request.written, hdelete.removed]⟩

theorem AgreementInv.step (hinv : AgreementInv sha256 ctx requests used cf)
    (h : StepOf sha256 requests cf i r) (hcond : AgreementStep requests cf i r)
    (hdrive : OnDrive ctx requests) (hdistinct : Distinct sha256 ctx used)
    (hwritten : ∀ c ∈ requests, ∀ p ∈ c.2.written, used p) :
  AgreementInv sha256 ctx requests used (cf.push i r)
  := by
  refine ⟨hinv.history.step h, ?_, ?_⟩
  · intro row hrow hdriveId
    obtain ⟨row', hrow', hrec⟩ | ⟨-, hversions, -⟩ := h.lawful.tables_cases
    · rw [Conf.push_state, hrec.versions, List.mem_append, List.mem_singleton] at hrow
      obtain hrow | rfl := hrow
      · exact hinv.rows row hrow hdriveId
      · obtain ⟨c, hc, hmem⟩ := h.commit_written hrow'
        exact hwritten c hc _ hmem
    · rw [Conf.push_state, hversions] at hrow
      exact hinv.rows row hrow hdriveId
  · intro path hused
    exact (hinv.paths path hused).step h hinv.history hcond hdrive hdistinct hwritten hused

/-- A request that has ended without being interrupted has no open change. -/
theorem PathInv.settled (hinv : PathInv sha256 ctx requests path cf)
    (hdrive : OnDrive ctx requests) (hdistinct : Distinct sha256 ctx used)
    (hwritten : ∀ c ∈ requests, ∀ p ∈ c.2.written, used p) (hused : used path)
    {result : Except OpError Response} (hend : EndOf sha256 requests i (cf.own i) result) :
  ¬ ctx.Pending path (cf.own i)
  := by
  obtain ⟨c, request, hi, hend⟩ := hend
  have hapart : request.Apart c path := by
    intro p hp hplace
    rw [hdrive.place hi, hdrive.place hi] at hplace
    apply hdistinct.paths p path _ hused hplace
    apply hwritten (c, request) (List.mem_of_getElem? hi)
    obtain hp | hp := hp
    · simp [Request.written, hp]
    · simp [Request.written, hp]
  have hsettled : request.Settled c (cf.own i) → ¬ ctx.Pending path (cf.own i) :=
    fun hs hpending => hs path hapart ((hdrive.pending hi).mpr hpending)
  cases result with
  | ok answer => exact hsettled hend.2
  | error e =>
      obtain hs | ⟨ev, hhead, hev⟩ := hend.2
      · exact hsettled hs
      · exact hinv.unbroken i ev hhead hev

end

/-- In every run of file operations on one drive whose steps meet `AgreementStep`, whenever
no operation is in flight, the object stored under the key of every path is the one its
newest version row describes. -/
theorem agrees_of_no_overlap (sha256 : Bytes → Text) (ctx : OpContext) (w : World)
    (requests : List (OpContext × Request)) (hdrive : OnDrive ctx requests)
    (hdistinct : Distinct sha256 ctx (InUse ctx requests w.db)) (hhistory : History w.db)
    (hstart : ∀ path, Agrees sha256 ctx w path) (sched : List (Nat × Input))
    (hcond : (Server.start sha256 w requests).Admits (AgreementStep requests) sched)
    (hquiet : ((Server.start sha256 w requests).run sched).Quiet) :
  ∀ path, Agrees sha256 ctx ((Server.start sha256 w requests).run sched).conf.state path
  := by
  have hwritten : ∀ c ∈ requests, ∀ p ∈ c.2.written, InUse ctx requests w.db p :=
    fun c hc p hp => .inl ⟨c, hc, hp⟩
  have hinit : AgreementInv sha256 ctx requests (InUse ctx requests w.db)
      (Server.start sha256 w requests).conf := by
    refine ⟨⟨hhistory, fun i d p v hhead => by cases hhead⟩, ?_, ?_⟩
    · exact fun row hrow hdriveId => .inr ⟨row, hrow, hdriveId, rfl⟩
    · intro path _
      have hnone : ∀ i, ¬ ctx.Pending path ((Server.start sha256 w requests).conf.own i) :=
        fun i => Clean.nil.not_pending path
      exact ⟨fun i hi => absurd hi (hnone i), fun i j hi => absurd hi (hnone i),
        fun i hi => absurd hi (hnone i), fun _ => hstart path, fun i _ _ _ => hnone i⟩
  have hsteps := Pool.admits_and.mpr ⟨start_steps sha256 w requests sched, hcond⟩
  obtain ⟨-, hinv⟩ := hsteps.inv (I := AgreementInv sha256 ctx requests
    (InUse ctx requests w.db)) (fun cf i r hr hinv =>
      hinv.step hr.1 hr.2 hdrive hdistinct hwritten) hinit
  intro path
  by_cases hused : InUse ctx requests w.db path
  · have hpath := hinv.paths path hused
    apply hpath.free
    intro i hpending
    obtain ⟨c, request, hi, -⟩ := hpath.mine i hpending
    have hlt : i < ((Server.start sha256 w requests).run sched).procs.length := by
      rw [Pool.length_run]
      simpa [Server.start] using (List.getElem?_eq_some_iff.mp hi).1
    obtain ⟨result, hresult⟩ := hquiet.result hlt
    exact hpath.settled hdrive hdistinct hwritten hused (start_result hresult) hpending
  · intro row hrow
    obtain ⟨hmem, hpath, hdriveId⟩ := Db.mem_versionsOf.mp (mem_of_getHeadVersionRow hrow)
    exact absurd (hpath ▸ hinv.rows row hmem hdriveId) hused

theorem agrees_empty (sha256 : Bytes → Text) (ctx : OpContext) (path : Text) :
  Agrees sha256 ctx World.empty path
  := by
  intro row hrow
  have hmem := mem_of_getHeadVersionRow hrow
  simp [World.empty, Db.empty] at hmem

/-- The place of `/f` is not that of a content-addressed copy. -/
theorem sampleContext_place_ne_blob (bytes : Bytes) :
  sampleContext.place "/f".toList ≠ locate .local (blobKey (sampleHash bytes))
  := by
  unfold sampleHash
  split
  · decide +kernel
  · decide +kernel
  · decide +kernel

/-- Two writes to `/f`, one after the other. -/
theorem agrees_sampleSequence :
  Agrees sampleHash sampleContext ((Server.start sampleHash World.empty
    [sampleWrite [97] none, sampleWrite [98] none]).run
      ([0, 0, 0, 0, 0, 0, 1, 1, 1, 1, 1, 1].map (·, sampleInput))).conf.state "/f".toList
  := by
  have hused : ∀ p, InUse sampleContext [sampleWrite [97] none, sampleWrite [98] none]
      World.empty.db p → p = "/f".toList := by
    rintro p (⟨c, hc, hp⟩ | ⟨row, hrow, -⟩)
    · simp only [List.mem_cons, List.not_mem_nil, or_false] at hc
      obtain rfl | rfl := hc
      · exact List.mem_singleton.mp hp
      · exact List.mem_singleton.mp hp
    · cases hrow
  apply agrees_of_no_overlap
  · intro c hc
    simp only [List.mem_cons, List.not_mem_nil, or_false] at hc
    obtain rfl | rfl := hc
    · exact ⟨rfl, rfl, rfl⟩
    · exact ⟨rfl, rfl, rfl⟩
  · constructor
    · intro p q hp hq _
      rw [hused p hp, hused q hq]
    · intro p hp bytes
      rw [hused p hp]
      exact sampleContext_place_ne_blob bytes
  · exact history_empty
  · exact agrees_empty sampleHash sampleContext
  · decide +kernel
  · decide +kernel

end AgentFs

import AgentFs.Ops.Agreement

/-!
# Moving a file

`mv` copies the object, records the copy, then removes the source and records its
deletion, and re-checks nothing in between.  A write to the source that commits after the
copy is deleted without having been moved.  The move conserves the source as long as the
copy reads what the head of the source describes, and nobody else commits to the source
until the move has recorded its deletion.
-/

namespace AgentFs

open Async

/-- Request `m` moves `source` to `target`; all other requests are writes to the source. -/
structure MoveRace (ctx : OpContext) (source target : Text) (m : Nat)
    (requests : List (OpContext × Request)) : Prop where
  drive : OnDrive ctx requests
  move : ∃ c params, requests[m]? = some (c, .mv params) ∧
    normalizePath params.fromPath = source ∧ normalizePath params.toPath = target
  others : ∀ i c request, requests[i]? = some (c, request) → i ≠ m →
    request.Writes ∧ request.target? = some source

/-- The version of the source right below the row that the move recorded as its deletion
has the content hash of the version that the move created at the target. -/
def Conserves (ctx : OpContext) (source target : Text) (m version : Nat) (cf : Config) : Prop :=
  ∃ moved deleted below,
    (.commit moved ∈ cf.own m ∧ moved ∈ cf.state.db.versionsOf ctx.driveId target ∧
      moved.version = version) ∧
    (.commit deleted ∈ cf.own m ∧ deleted ∈ cf.state.db.versionsOf ctx.driveId source ∧
      deleted.operation = .delete) ∧
    below ∈ cf.state.db.versionsOf ctx.driveId source ∧ below.version + 1 = deleted.version ∧
    below.contentHash = moved.contentHash

/-- A move of `/f` to `/g`. -/
def sampleMove : OpContext × Request :=
  (sampleContext, .mv { fromPath := "/f".toList, toPath := "/g".toList })

/-- `/f` is written, moved to `/g`, and written again after the move has recorded `/g`. -/
def sampleMoveRace : Server :=
  (Server.start sampleHash World.empty
    [sampleMove, sampleWrite [97] none, sampleWrite [98] none]).run
      ([1, 1, 1, 1, 1, 1, 0, 0, 0, 0, 0, 0, 0, 2, 2, 2, 2, 2, 2, 0, 0, 0, 0].map (·, sampleInput))

/-- The move succeeds, and the version below its deletion is not the one it moved. -/
theorem not_conserves_sampleMoveRace :
  sampleMoveRace.result? 0 = some (.ok (.moved "/f".toList "/g".toList 1)) ∧
    ¬ Conserves sampleContext "/f".toList "/g".toList 0 1 sampleMoveRace.conf
  := by
  refine ⟨by decide +kernel, ?_⟩
  rintro ⟨moved, deleted, below, ⟨-, hmoved, -⟩, ⟨-, hdeleted, hop⟩, hbelow, hversion, hhash⟩
  have htarget : ∀ r ∈ sampleMoveRace.conf.state.db.versionsOf sampleContext.driveId
      "/g".toList, r.contentHash = some (sampleHash [97]) := by decide +kernel
  have hsource : ∀ d ∈ sampleMoveRace.conf.state.db.versionsOf sampleContext.driveId
      "/f".toList, d.operation = .delete →
        ∀ r ∈ sampleMoveRace.conf.state.db.versionsOf sampleContext.driveId "/f".toList,
          r.version + 1 = d.version → r.contentHash = some (sampleHash [98]) := by decide +kernel
  rw [htarget moved hmoved, hsource deleted hdeleted hop below hbelow hversion] at hhash
  exact absurd hhash (by decide +kernel)

/-! ### The exact condition -/

/-- The event reads an object at the place. -/
def Event.Fetches (loc : Loc) : Event → Prop
  | .readObject l (some _) => l = loc
  | _ => False

/-- The event records a version of the path. -/
def Event.CommitsTo (path : Text) : Event → Prop
  | .commit row => row.path = path
  | _ => False

instance (loc : Loc) (ev : Event) : Decidable (ev.Fetches loc) :=
  match ev with
  | .readObject l (some _) => inferInstanceAs (Decidable (l = loc))
  | .readObject _ none | .silent | .fault | .probe .. | .readVersion .. | .storeBlob .. | .storeObject ..
  | .removeObject .. | .checkVersion .. | .readHead .. | .readRow .. | .allocate ..
  | .commit .. | .abort .. => isFalse id

instance (path : Text) (ev : Event) : Decidable (ev.CommitsTo path) :=
  match ev with
  | .commit row => inferInstanceAs (Decidable (row.path = path))
  | .readObject .. | .silent | .fault | .probe .. | .readVersion .. | .storeBlob .. | .storeObject ..
  | .removeObject .. | .checkVersion .. | .readHead .. | .readRow .. | .allocate ..
  | .abort .. => isFalse id

/-- A request with history `h` has read the object of the path and recorded no version of
it since. -/
def OpContext.Exposed (ctx : OpContext) (path : Text) (h : List Event) : Prop :=
  (∃ ev ∈ h, ev.Fetches (ctx.place path)) ∧ ∀ ev ∈ h, ¬ ev.CommitsTo path

/-- The hash that the head of a path records. -/
def headHash (ctx : OpContext) (db : Db) (path : Text) : Option Text :=
  (getHeadVersionRow db ctx.driveId path).bind (·.contentHash)

/-- The condition on the steps of a run in which request `m` reads the object of a path: it
reads what the head describes, and no other request commits to the path from then on until
`m` does. -/
def MoveStep (sha256 : Bytes → Text) (ctx : OpContext) (path : Text) (m : Nat) :
    StepProp World Event := fun cf i r =>
  match r.1 with
  | .readObject loc (some obj) => i = m → loc = ctx.place path →
      headHash ctx cf.state.db path = some (sha256 obj.bytes)
  | .commit row => i ≠ m → row.path = path → ¬ ctx.Exposed path (cf.own m)
  | _ => True

instance (ctx : OpContext) (path : Text) (h : List Event) : Decidable (ctx.Exposed path h) :=
  inferInstanceAs (Decidable (_ ∧ _))

instance (sha256 : Bytes → Text) (ctx : OpContext) (path : Text) (m : Nat) (cf : Config)
    (i : Nat) (r : Event × World) : Decidable (MoveStep sha256 ctx path m cf i r) :=
  match r with
  | (.readObject _ (some _), _) => inferInstanceAs (Decidable (_ → _))
  | (.commit _, _) => inferInstanceAs (Decidable (_ → _))
  | (.readObject _ none, _) | (.silent, _) | (.fault, _) | (.probe .., _) | (.readVersion .., _)
  | (.storeBlob .., _) | (.storeObject .., _) | (.removeObject .., _) | (.checkVersion .., _)
  | (.readHead .., _) | (.readRow .., _) | (.allocate .., _) | (.abort .., _) => isTrue trivial

/-! ### The invariant -/

section

variable {sha256 : Bytes → Text} {ctx : OpContext} {requests : List (OpContext × Request)}
  {source target : Text} {m : Nat} {cf : Config} {i : Nat} {r : Event × World}

/-- The history of the move has read `obj` at the source. -/
def Copied (ctx : OpContext) (source : Text) (h : List Event) (obj : Obj) : Prop :=
  .readObject (ctx.place source) (some obj) ∈ h

/-- What the history of the move says about itself. -/
structure MoveHistory (sha256 : Bytes → Text) (ctx : OpContext) (source target : Text)
    (h : List Event) : Prop where
  /-- All copies have one hash. -/
  agree : ∀ o o', Copied ctx source h o → Copied ctx source h o' → sha256 o.bytes = sha256 o'.bytes
  /-- What is stored at the target is a copy. -/
  stored : ∀ obj, .storeObject (ctx.place target) obj ∈ h →
    ∃ o, Copied ctx source h o ∧ o.bytes = obj.bytes
  /-- The version of the target has the hash of a copy. -/
  moved : ∀ row, .commit row ∈ h → row.path = target →
    ∃ o, Copied ctx source h o ∧ row.contentHash = some (sha256 o.bytes)
  /-- While the deletion is open, the target is recorded and the source is not. -/
  removing : ctx.Pending source h →
    Stored target h ∧ ∀ row, .commit row ∈ h → row.path ≠ source
  /-- While the copy is open, it is stored. -/
  copying : ctx.Pending target h → ∃ obj, .storeObject (ctx.place target) obj ∈ h

/-- The invariant of a run with a move. -/
structure MoveInv (sha256 : Bytes → Text) (ctx : OpContext) (source target : Text) (m : Nat)
    (cf : Config) : Prop where
  history : HistoryInv cf
  own : MoveHistory sha256 ctx source target (cf.own m)
  /-- What has been committed is in the table. -/
  rows : ∀ row, .commit row ∈ cf.own m → row ∈ cf.state.db.fileVersions ∧
    row.driveId = ctx.driveId
  /-- Until the source is deleted, its head has the hash of the copy. -/
  head : ∀ o, Copied ctx source (cf.own m) o → (∀ row, .commit row ∈ cf.own m → row.path ≠ source) →
    headHash ctx cf.state.db source = some (sha256 o.bytes)
  /-- The object at the target is what the move has last seen there. -/
  seen : ∀ obj, lastSeen (ctx.place target) (cf.own m) = some obj →
    cf.state.store.objects (ctx.place target) = obj
  /-- The object at the target is what the move has stored there. -/
  object : ∀ obj, .storeObject (ctx.place target) obj ∈ cf.own m →
    cf.state.store.objects (ctx.place target) = some obj
  /-- Below the recorded deletion there is a version with the hash of a copy. -/
  deleted : ∀ row, .commit row ∈ cf.own m → row.path = source →
    ∃ o below, Copied ctx source (cf.own m) o ∧
      below ∈ cf.state.db.versionsOf ctx.driveId source ∧ below.version + 1 = row.version ∧
      below.contentHash = some (sha256 o.bytes)

/-- The places of the move: source and target are apart, and so is the target from the
content-addressed copies. -/
structure MovePlaces (sha256 : Bytes → Text) (ctx : OpContext) (source target : Text) : Prop where
  apart : ctx.place source ≠ ctx.place target
  blobs : ∀ bytes, ctx.place target ≠ locate .local (blobKey (sha256 bytes))

theorem MovePlaces.ne (h : MovePlaces sha256 ctx source target) :
  source ≠ target
  := fun heq => h.apart (by rw [heq])

/-- A step keeps the rows of a path. -/
theorem StepOf.mem_versionsOf (h : StepOf sha256 requests cf i r) {driveId path : Text}
    {row : FileVersionRow} (hrow : row ∈ cf.state.db.versionsOf driveId path) :
  row ∈ r.2.db.versionsOf driveId path
  := by
  obtain ⟨hmem, hkey⟩ := Db.mem_versionsOf.mp hrow
  apply Db.mem_versionsOf.mpr
  refine ⟨?_, hkey⟩
  obtain ⟨row', -, hrec⟩ | ⟨-, hversions, -⟩ := h.lawful.tables_cases
  · rw [hrec.versions]
    exact List.mem_append_left _ hmem
  · rw [hversions]
    exact hmem

/-- The head hash of a path changes only with a commit to it. -/
theorem StepOf.headHash_eq (h : StepOf sha256 requests cf i r) {path : Text}
    (hcommit : ∀ row, r.1 = .commit row → row.path ≠ path) :
  headHash ctx r.2.db path = headHash ctx cf.state.db path
  := by
  unfold headHash
  obtain ⟨row, hrow, hrec⟩ | ⟨-, hversions, -⟩ := h.lawful.tables_cases
  · rw [hrec.head_other (fun hkey => hcommit row hrow hkey.1.symm)]
  · rw [getHeadVersionRow_congr hversions]

/-- The object at a place changes only with an event that stores or removes there. -/
theorem StepOf.object_eq (h : StepOf sha256 requests cf i r) {loc : Loc}
    (hblob : ∀ bytes, loc ≠ locate .local (blobKey (sha256 bytes)))
    (hstore : ∀ obj, r.1 ≠ .storeObject loc obj) (hremove : r.1 ≠ .removeObject loc) :
  r.2.store.objects loc = cf.state.store.objects loc
  := by
  have hreads := h.lawful.reads
  rw [h.lawful.objects]
  cases hr : r.1 with
  | storeBlob l obj =>
      rw [hr] at hreads
      have hl : l = locate .local (blobKey (sha256 obj.bytes)) := hreads
      rw [Event.applyObjects, Function.update_of_ne (hl ▸ hblob obj.bytes)]
  | storeObject l obj =>
      have hl : loc ≠ l := fun heq => hstore obj (hr.trans (by rw [heq]))
      rw [Event.applyObjects, Function.update_of_ne hl]
  | removeObject l =>
      have hl : loc ≠ l := fun heq => hremove (hr.trans (by rw [heq]))
      rw [Event.applyObjects, Function.update_of_ne hl]
  | _ => rfl

/-- A step of another request keeps the invariant. -/
theorem MoveInv.step_other (hinv : MoveInv sha256 ctx source target m cf)
    (h : StepOf sha256 requests cf i r) (hrace : MoveRace ctx source target m requests)
    (hplaces : MovePlaces sha256 ctx source target)
    (hcond : MoveStep sha256 ctx source m cf i r) (him : i ≠ m) :
  MoveInv sha256 ctx source target m (cf.push i r)
  := by
  obtain ⟨c, request, hi, hobeys⟩ := h.obeys
  have hobeys := hrace.drive.obeys hi hobeys
  obtain ⟨hwrites, htarget⟩ := hrace.others i c request hi him
  have hobject : r.2.store.objects (ctx.place target) =
      cf.state.store.objects (ctx.place target) := by
    apply h.object_eq hplaces.blobs
    · intro obj hr
      rw [hr] at hobeys
      obtain ⟨-, -, -, -, path, hpath, hloc⟩ := hobeys
      rw [htarget, Option.some.injEq] at hpath
      rw [← hpath] at hloc
      exact hplaces.apart hloc.symm
    · intro hr
      rw [hr] at hobeys
      obtain ⟨-, -, -, path, hpath, -⟩ := hobeys
      rw [hwrites.removed] at hpath
      cases hpath
  constructor
  · exact hinv.history.step h
  · rw [Conf.own_push_of_ne him]
    exact hinv.own
  · intro row hrow
    rw [Conf.own_push_of_ne him] at hrow
    obtain ⟨hmem, hdrive⟩ := hinv.rows row hrow
    have hmem' := h.mem_versionsOf (Db.mem_versionsOf.mpr ⟨hmem, rfl, rfl⟩)
    exact ⟨(Db.mem_versionsOf.mp hmem').1, hdrive⟩
  · intro o ho hnone
    rw [Conf.own_push_of_ne him] at ho hnone
    rw [Conf.push_state, h.headHash_eq]
    · exact hinv.head o ho hnone
    · intro row hrow hpath
      unfold MoveStep at hcond
      rw [hrow] at hcond
      apply hcond him hpath
      refine ⟨⟨_, ho, rfl⟩, ?_⟩
      intro ev hev
      cases ev with
      | commit row' => exact hnone row' hev
      | _ => exact not_false
  · intro obj hobj
    rw [Conf.own_push_of_ne him] at hobj
    rw [Conf.push_state, hobject]
    exact hinv.seen obj hobj
  · intro obj hobj
    rw [Conf.own_push_of_ne him] at hobj
    rw [Conf.push_state, hobject]
    exact hinv.object obj hobj
  · intro row hrow hpath
    rw [Conf.own_push_of_ne him] at hrow ⊢
    obtain ⟨o, below, ho, hbelow, hrest⟩ := hinv.deleted row hrow hpath
    exact ⟨o, below, ho, h.mem_versionsOf hbelow, hrest⟩

theorem Copied.cons {h : List Event} {ev : Event} {obj : Obj} (hobj : Copied ctx source h obj) :
  Copied ctx source (ev :: h) obj
  := List.mem_cons_of_mem _ hobj

theorem Stored.cons {path : Text} {h : List Event} {ev : Event} (hstored : Stored path h) :
  Stored path (ev :: h)
  := by
  obtain ⟨row, hrow, hrest⟩ := hstored
  exact ⟨row, List.mem_cons_of_mem _ hrow, hrest⟩

theorem commit_mem_cons {h : List Event} {ev : Event} {row : FileVersionRow}
    (hev : ∀ row, ev ≠ .commit row) :
  .commit row ∈ ev :: h ↔ .commit row ∈ h
  := by
  rw [List.mem_cons]
  constructor
  · rintro (heq | hmem)
    · exact absurd heq.symm (hev row)
    · exact hmem
  · exact .inr

theorem MoveHistory.nil :
  MoveHistory sha256 ctx source target []
  := by
  constructor
  · intro o o' ho
    cases ho
  · intro obj hobj
    cases hobj
  · intro row hrow
    cases hrow
  · exact fun hpending => absurd hpending (Clean.nil.not_pending _)
  · exact fun hpending => absurd hpending (Clean.nil.not_pending _)

/-- An event that changes nothing keeps what the history says, if what it fetches from the
source has the hash of the other copies. -/
theorem MoveHistory.cons_of_not_changes {h : List Event} {ev : Event}
    (hinv : MoveHistory sha256 ctx source target h) (hev : ¬ ev.Changes)
    (hagree : ∀ o o', ev = .readObject (ctx.place source) (some o) → Copied ctx source h o' →
      sha256 o.bytes = sha256 o'.bytes) :
  MoveHistory sha256 ctx source target (ev :: h)
  := by
  have hcommit : ∀ row, ev ≠ .commit row := by
    rintro row rfl
    exact hev trivial
  have hstore : ∀ loc obj, ev ≠ .storeObject loc obj := by
    rintro loc obj rfl
    exact hev trivial
  constructor
  · intro o o' ho ho'
    obtain ho | ho := List.mem_cons.mp ho
    · obtain ho' | ho' := List.mem_cons.mp ho'
      · have heq := ho.trans ho'.symm
        simp only [Event.readObject.injEq, Option.some.injEq, true_and] at heq
        rw [heq]
      · exact hagree o o' ho.symm ho'
    · obtain ho' | ho' := List.mem_cons.mp ho'
      · exact (hagree o' o ho'.symm ho).symm
      · exact hinv.agree o o' ho ho'
  · intro obj hobj
    obtain hobj | hobj := List.mem_cons.mp hobj
    · exact absurd hobj.symm (hstore _ _)
    · obtain ⟨o, ho, hbytes⟩ := hinv.stored obj hobj
      exact ⟨o, ho.cons, hbytes⟩
  · intro row hrow hpath
    obtain ⟨o, ho, hhash⟩ := hinv.moved row ((commit_mem_cons hcommit).mp hrow) hpath
    exact ⟨o, ho.cons, hhash⟩
  · intro hpending
    obtain ⟨hstored, hnone⟩ := hinv.removing ((pending_cons_of_not_changes hev).mp hpending)
    exact ⟨hstored.cons, fun row hrow => hnone row ((commit_mem_cons hcommit).mp hrow)⟩
  · intro hpending
    obtain ⟨obj, hobj⟩ := hinv.copying ((pending_cons_of_not_changes hev).mp hpending)
    exact ⟨obj, List.mem_cons_of_mem _ hobj⟩

/-- A step of the move that records nothing keeps the invariant, given what its history
says and what it leaves at the target. -/
theorem MoveInv.step_no_commit (hinv : MoveInv sha256 ctx source target m cf)
    (h : StepOf sha256 requests cf m r) (hcommit : ∀ row, r.1 ≠ .commit row)
    (hfetch : ∀ o, r.1 = .readObject (ctx.place source) (some o) →
      headHash ctx cf.state.db source = some (sha256 o.bytes))
    (hown : MoveHistory sha256 ctx source target (r.1 :: cf.own m))
    (hseen : ∀ obj, lastSeen (ctx.place target) (r.1 :: cf.own m) = some obj →
      r.2.store.objects (ctx.place target) = obj)
    (hobject : ∀ obj, .storeObject (ctx.place target) obj ∈ r.1 :: cf.own m →
      r.2.store.objects (ctx.place target) = some obj) :
  MoveInv sha256 ctx source target m (cf.push m r)
  := by
  constructor
  · exact hinv.history.step h
  · rw [Conf.own_push_self]
    exact hown
  · intro row hrow
    rw [Conf.own_push_self, commit_mem_cons hcommit] at hrow
    obtain ⟨hmem, hdrive⟩ := hinv.rows row hrow
    have hmem' := h.mem_versionsOf (Db.mem_versionsOf.mpr ⟨hmem, rfl, rfl⟩)
    exact ⟨(Db.mem_versionsOf.mp hmem').1, hdrive⟩
  · intro o ho hnone
    rw [Conf.own_push_self] at ho hnone
    rw [Conf.push_state, h.headHash_eq (fun row hrow => absurd hrow (hcommit row))]
    obtain ho | ho := List.mem_cons.mp ho
    · exact hfetch o ho.symm
    · exact hinv.head o ho (fun row hrow => hnone row (List.mem_cons_of_mem _ hrow))
  · rw [Conf.own_push_self]
    exact hseen
  · rw [Conf.own_push_self]
    exact hobject
  · intro row hrow hpath
    rw [Conf.own_push_self, commit_mem_cons hcommit] at hrow
    rw [Conf.own_push_self]
    obtain ⟨o, below, ho, hbelow, hrest⟩ := hinv.deleted row hrow hpath
    exact ⟨o, below, ho.cons, h.mem_versionsOf hbelow, hrest⟩

/-- A step of the move that changes nothing keeps the invariant. -/
theorem MoveInv.step_reads (hinv : MoveInv sha256 ctx source target m cf)
    (h : StepOf sha256 requests cf m r) (hev : ¬ r.1.Changes)
    (hclean : ∀ o, r.1 = .readObject (ctx.place source) (some o) →
      Clean (cf.own m) ∧ headHash ctx cf.state.db source = some (sha256 o.bytes))
    (hplaces : MovePlaces sha256 ctx source target) :
  MoveInv sha256 ctx source target m (cf.push m r)
  := by
  have hcommit : ∀ row, r.1 ≠ .commit row := by
    intro row hrow
    rw [hrow] at hev
    exact hev trivial
  have hstore : ∀ loc obj, r.1 ≠ .storeObject loc obj := by
    intro loc obj hr
    rw [hr] at hev
    exact hev trivial
  have hremove : ∀ loc, r.1 ≠ .removeObject loc := by
    intro loc hr
    rw [hr] at hev
    exact hev trivial
  have hobject := h.object_eq hplaces.blobs (hstore _) (hremove _)
  apply hinv.step_no_commit h hcommit (fun o ho => (hclean o ho).2)
  · apply hinv.own.cons_of_not_changes hev
    intro o o' hr ho'
    obtain ⟨hc, hhash⟩ := hclean o hr
    have hhash' := hinv.head o' ho' (fun row hrow => absurd trivial (hc _ hrow))
    rw [hhash] at hhash'
    exact Option.some.inj hhash'
  · intro obj hobj
    rw [hobject]
    cases hseen : r.1.seen (ctx.place target) with
    | none =>
        rw [lastSeen_cons_of_none hseen] at hobj
        exact hinv.seen obj hobj
    | some o =>
        rw [lastSeen_cons_of_some hseen, Option.some.injEq] at hobj
        subst hobj
        have hreads := h.lawful.reads
        cases hr : r.1 with
        | readObject loc obj =>
            rw [hr] at hreads hseen
            have hobj : obj = cf.state.store.objects loc := hreads
            by_cases hloc : loc = ctx.place target
            · rw [Event.seen, if_pos hloc, Option.some.injEq] at hseen
              rw [← hseen, hobj, hloc]
            · rw [Event.seen, if_neg hloc] at hseen
              cases hseen
        | storeBlob loc obj =>
            rw [hr] at hreads hseen
            have hloc : loc = locate .local (blobKey (sha256 obj.bytes)) := hreads
            have hne : loc ≠ ctx.place target := fun heq => hplaces.blobs _ (heq.symm.trans hloc)
            rw [Event.seen, if_neg hne] at hseen
            cases hseen
        | storeObject loc obj => exact absurd hr (hstore loc obj)
        | removeObject loc => exact absurd hr (hremove loc)
        | _ =>
            rw [hr] at hseen
            cases hseen
  · intro obj hobj
    rw [hobject]
    obtain hobj | hobj := List.mem_cons.mp hobj
    · exact absurd hobj.symm (hstore _ _)
    · exact hinv.object obj hobj

/-- Storing a copy at the target keeps what the history says. -/
theorem MoveHistory.storeObject {h : List Event} {obj o : Obj}
    (hinv : MoveHistory sha256 ctx source target h)
    (hplaces : MovePlaces sha256 ctx source target) (ho : Copied ctx source h o)
    (hbytes : o.bytes = obj.bytes) :
  MoveHistory sha256 ctx source target (.storeObject (ctx.place target) obj :: h)
  := by
  have hcopied : ∀ o', Copied ctx source (.storeObject (ctx.place target) obj :: h) o' →
      Copied ctx source h o' := fun o' ho' => by
    obtain ho' | ho' := List.mem_cons.mp ho'
    · cases ho'
    · exact ho'
  constructor
  · exact fun o₁ o₂ h₁ h₂ => hinv.agree o₁ o₂ (hcopied o₁ h₁) (hcopied o₂ h₂)
  · intro obj' hobj'
    obtain hobj' | hobj' := List.mem_cons.mp hobj'
    · cases hobj'
      exact ⟨o, ho.cons, hbytes⟩
    · obtain ⟨o', ho', hbytes'⟩ := hinv.stored obj' hobj'
      exact ⟨o', ho'.cons, hbytes'⟩
  · intro row hrow hpath
    obtain ⟨o', ho', hhash⟩ := hinv.moved row ((commit_mem_cons (by simp)).mp hrow) hpath
    exact ⟨o', ho'.cons, hhash⟩
  · intro hpending
    obtain hmarks | ⟨-, hpending⟩ := pending_cons.mp hpending
    · simp [Event.marks, hplaces.apart.symm] at hmarks
    · obtain ⟨hstored, hnone⟩ := hinv.removing hpending
      exact ⟨hstored.cons, fun row hrow => hnone row ((commit_mem_cons (by simp)).mp hrow)⟩
  · exact fun _ => ⟨obj, List.mem_cons_self⟩

/-- Removing the source keeps what the history says. -/
theorem MoveHistory.removeObject {h : List Event}
    (hinv : MoveHistory sha256 ctx source target h)
    (hplaces : MovePlaces sha256 ctx source target) (hstored : Stored target h)
    (honly : ∀ row, .commit row ∈ h → row.path = target) :
  MoveHistory sha256 ctx source target (.removeObject (ctx.place source) :: h)
  := by
  have hcopied : ∀ o', Copied ctx source (.removeObject (ctx.place source) :: h) o' →
      Copied ctx source h o' := fun o' ho' => by
    obtain ho' | ho' := List.mem_cons.mp ho'
    · cases ho'
    · exact ho'
  constructor
  · exact fun o₁ o₂ h₁ h₂ => hinv.agree o₁ o₂ (hcopied o₁ h₁) (hcopied o₂ h₂)
  · intro obj hobj
    obtain hobj | hobj := List.mem_cons.mp hobj
    · cases hobj
    · obtain ⟨o, ho, hbytes⟩ := hinv.stored obj hobj
      exact ⟨o, ho.cons, hbytes⟩
  · intro row hrow hpath
    obtain ⟨o, ho, hhash⟩ := hinv.moved row ((commit_mem_cons (by simp)).mp hrow) hpath
    exact ⟨o, ho.cons, hhash⟩
  · intro _
    refine ⟨hstored.cons, fun row hrow hpath => ?_⟩
    have htarget := honly row ((commit_mem_cons (by simp)).mp hrow)
    exact hplaces.ne (hpath.symm.trans htarget)
  · intro hpending
    obtain hmarks | ⟨-, hpending⟩ := pending_cons.mp hpending
    · simp [Event.marks, hplaces.apart] at hmarks
    · obtain ⟨obj, hobj⟩ := hinv.copying hpending
      exact ⟨obj, List.mem_cons_of_mem _ hobj⟩

/-- Recording a version keeps what the history says, if a version of the target has the
hash of a copy. -/
theorem MoveHistory.commit {h : List Event} {row : FileVersionRow}
    (hinv : MoveHistory sha256 ctx source target h)
    (hrow : row.path = target → ∃ o, Copied ctx source h o ∧
      row.contentHash = some (sha256 o.bytes)) :
  MoveHistory sha256 ctx source target (.commit row :: h)
  := by
  have hcopied : ∀ o', Copied ctx source (.commit row :: h) o' → Copied ctx source h o' :=
    fun o' ho' => by
      obtain ho' | ho' := List.mem_cons.mp ho'
      · cases ho'
      · exact ho'
  constructor
  · exact fun o₁ o₂ h₁ h₂ => hinv.agree o₁ o₂ (hcopied o₁ h₁) (hcopied o₂ h₂)
  · intro obj hobj
    obtain hobj | hobj := List.mem_cons.mp hobj
    · cases hobj
    · obtain ⟨o, ho, hbytes⟩ := hinv.stored obj hobj
      exact ⟨o, ho.cons, hbytes⟩
  · intro row' hrow' hpath
    obtain hrow' | hrow' := List.mem_cons.mp hrow'
    · cases hrow'
      obtain ⟨o, ho, hhash⟩ := hrow hpath
      exact ⟨o, ho.cons, hhash⟩
    · obtain ⟨o, ho, hhash⟩ := hinv.moved row' hrow' hpath
      exact ⟨o, ho.cons, hhash⟩
  · intro hpending
    obtain ⟨hne, hpending⟩ := pending_commit.mp hpending
    obtain ⟨hstored, hnone⟩ := hinv.removing hpending
    refine ⟨hstored.cons, fun row' hrow' => ?_⟩
    obtain hrow' | hrow' := List.mem_cons.mp hrow'
    · cases hrow'
      exact hne
    · exact hnone row' hrow'
  · intro hpending
    obtain ⟨obj, hobj⟩ := hinv.copying (pending_commit.mp hpending).2
    exact ⟨obj, List.mem_cons_of_mem _ hobj⟩

/-- A commit of the move keeps the invariant. -/
theorem MoveInv.step_commit (hinv : MoveInv sha256 ctx source target m cf)
    (h : StepOf sha256 requests cf m r) {row : FileVersionRow} (hr : r.1 = .commit row)
    (hplaces : MovePlaces sha256 ctx source target) (hdrive : row.driveId = ctx.driveId)
    (hpending : ctx.Pending row.path (cf.own m))
    (hdoc : (row.path = target ∧ ∃ obj, lastSeen (ctx.place row.path) (cf.own m) =
        some (some obj) ∧ row.contentHash = some (sha256 obj.bytes)) ∨ row.path = source) :
  MoveInv sha256 ctx source target m (cf.push m r)
  := by
  have hversion := h.commit_version hinv.history hr
  have hrec : Records cf.state.db row r.2.db := by
    have htables := h.lawful.tables
    rw [hr] at htables
    exact htables
  have hobjects : r.2.store.objects = cf.state.store.objects := by
    rw [h.lawful.objects, hr]
    rfl
  have hmoved : row.path = target →
      ∃ o, Copied ctx source (cf.own m) o ∧ row.contentHash = some (sha256 o.bytes) := by
    intro hpath
    obtain ⟨-, obj, hseen, hhash⟩ | hsource := hdoc
    · rw [hpath] at hpending hseen
      obtain ⟨obj', hstore⟩ := hinv.own.copying hpending
      obtain ⟨o, ho, hbytes⟩ := hinv.own.stored obj' hstore
      have hobj := (hinv.seen _ hseen).symm.trans (hinv.object obj' hstore)
      rw [Option.some.injEq] at hobj
      exact ⟨o, ho, by rw [hhash, hobj, hbytes]⟩
    · exact absurd (hsource.symm.trans hpath) hplaces.ne
  constructor
  · exact hinv.history.step h
  · rw [Conf.own_push_self, hr]
    exact hinv.own.commit hmoved
  · intro row' hrow'
    rw [Conf.own_push_self, hr] at hrow'
    obtain heq | hrow' := List.mem_cons.mp hrow'
    · cases heq
      refine ⟨?_, hdrive⟩
      rw [Conf.push_state, hrec.versions]
      simp
    · obtain ⟨hmem, hdrive'⟩ := hinv.rows row' hrow'
      refine ⟨?_, hdrive'⟩
      rw [Conf.push_state, hrec.versions]
      exact List.mem_append_left _ hmem
  · intro o ho hnone
    rw [Conf.own_push_self, hr] at ho hnone
    rw [Conf.push_state, h.headHash_eq]
    · obtain ho | ho := List.mem_cons.mp ho
      · cases ho
      · exact hinv.head o ho (fun row' hrow' => hnone row' (List.mem_cons_of_mem _ hrow'))
    · intro row' hrow'
      rw [hr] at hrow'
      cases hrow'
      exact hnone row List.mem_cons_self
  · intro obj hobj
    rw [Conf.own_push_self, hr, lastSeen_cons_of_none rfl] at hobj
    rw [Conf.push_state, hobjects]
    exact hinv.seen obj hobj
  · intro obj hobj
    rw [Conf.own_push_self, hr] at hobj
    rw [Conf.push_state, hobjects]
    obtain hobj | hobj := List.mem_cons.mp hobj
    · cases hobj
    · exact hinv.object obj hobj
  · intro row' hrow' hpath
    rw [Conf.own_push_self, hr] at hrow' ⊢
    obtain heq | hrow' := List.mem_cons.mp hrow'
    · cases heq
      rw [hpath] at hpending
      obtain ⟨⟨moved, hmem, hmovedPath, -⟩, hnone⟩ := hinv.own.removing hpending
      obtain ⟨o, ho, -⟩ := hinv.own.moved moved hmem hmovedPath
      have hhead := hinv.head o ho hnone
      obtain ⟨below, hbelow, hhash⟩ := Option.bind_eq_some_iff.mp hhead
      have hbelow_mem := mem_of_getHeadVersionRow hbelow
      refine ⟨o, below, ho.cons, h.mem_versionsOf hbelow_mem, ?_, hhash⟩
      rw [hversion, hdrive, hpath, getNextVersion_eq, currentVersion, hbelow]
      rfl
    · obtain ⟨o, below, ho, hbelow, hrest⟩ := hinv.deleted row' hrow' hpath
      exact ⟨o, below, ho.cons, h.mem_versionsOf hbelow, hrest⟩

/-- Every step that meets the condition keeps the invariant. -/
theorem MoveInv.step (hinv : MoveInv sha256 ctx source target m cf)
    (h : StepOf sha256 requests cf i r) (hrace : MoveRace ctx source target m requests)
    (hplaces : MovePlaces sha256 ctx source target)
    (hcond : MoveStep sha256 ctx source m cf i r) :
  MoveInv sha256 ctx source target m (cf.push i r)
  := by
  by_cases him : i = m
  · subst him
    obtain ⟨c, request, hi, hobeys⟩ := h.obeys
    have hobeys := hrace.drive.obeys hi hobeys
    obtain ⟨c', params, hi', rfl, rfl⟩ := hrace.move
    rw [hi, Option.some.injEq, Prod.mk.injEq] at hi'
    obtain ⟨rfl, rfl⟩ := hi'
    have hobjects := h.lawful.objects
    cases hr : r.1 with
    | storeObject loc obj =>
        rw [hr] at hobeys hobjects
        obtain ⟨-, hclean, ⟨horigin, -⟩, -, target, htarget, rfl⟩ := hobeys
        cases htarget
        obtain ⟨o, ho, hbytes⟩ := horigin _ rfl
        have hobject : r.2.store.objects (ctx.place (normalizePath params.toPath)) = some obj := by
          rw [hobjects, Event.applyObjects, Function.update_self]
        apply hinv.step_no_commit h
        · simp [hr]
        · simp [hr]
        · rw [hr]
          exact hinv.own.storeObject hplaces ho hbytes
        · intro obj' hseen
          have hev : (Event.storeObject (ctx.place (normalizePath params.toPath)) obj).seen
              (ctx.place (normalizePath params.toPath)) = some (some obj) := by
            simp [Event.seen]
          rw [hr, lastSeen_cons_of_some hev, Option.some.injEq] at hseen
          rw [hobject, hseen]
        · intro obj' hobj'
          rw [hr] at hobj'
          obtain hobj' | hobj' := List.mem_cons.mp hobj'
          · cases hobj'
            exact hobject
          · exact absurd trivial (hclean _ hobj')
    | removeObject loc =>
        rw [hr] at hobeys
        obtain ⟨-, hstored, honly, source, hsource, rfl⟩ := hobeys
        cases hsource
        have hobject := h.object_eq hplaces.blobs (fun obj heq => by simp [hr] at heq)
          (fun heq => by simp [hr, hplaces.apart] at heq)
        apply hinv.step_no_commit h
        · simp [hr]
        · simp [hr]
        · rw [hr]
          apply hinv.own.removeObject hplaces (hstored _ rfl)
          intro row hrow
          exact (Option.some.inj (honly row hrow)).symm
        · intro obj hseen
          rw [hr, lastSeen_cons_of_none (by simp [Event.seen, hplaces.apart])] at hseen
          rw [hobject]
          exact hinv.seen obj hseen
        · intro obj hobj
          rw [hr] at hobj
          rw [hobject]
          obtain hobj | hobj := List.mem_cons.mp hobj
          · cases hobj
          · exact hinv.object obj hobj
    | commit row =>
        rw [hr] at hobeys
        obtain ⟨-, hdrive, hpending, hdoc⟩ := hobeys
        apply hinv.step_commit h hr hplaces hdrive hpending
        obtain hstore | hdelete := hdoc
        · exact .inl ⟨(Option.some.inj hstore.target).symm, hstore.hash⟩
        · exact .inr (Option.some.inj hdelete.removed).symm
    | readObject loc obj =>
        apply hinv.step_reads h (by simp [hr, Event.Changes]) _ hplaces
        intro o ho
        rw [hr] at ho
        cases ho
        unfold MoveStep at hcond
        rw [hr] at hobeys hcond
        refine ⟨?_, hcond rfl rfl⟩
        obtain hclean | ⟨target, htarget, hloc⟩ := hobeys
        · exact hclean
        · cases htarget
          exact absurd hloc hplaces.apart
    | _ => exact hinv.step_reads h (by simp [hr, Event.Changes]) (by simp [hr]) hplaces
  · exact hinv.step_other h hrace hplaces hcond him

end

/-- In every run of a move with any number of writes to its source whose steps meet
`MoveStep`, when the move has succeeded, the version right below its deletion of the source
has the content hash of the version it created at the target. -/
theorem move_conserves (sha256 : Bytes → Text) (ctx : OpContext) (w : World)
    (source target : Text) (m : Nat) (requests : List (OpContext × Request))
    (hrace : MoveRace ctx source target m requests)
    (hplaces : MovePlaces sha256 ctx source target) (hhistory : History w.db)
    (sched : List (Nat × Input))
    (hcond : (Server.start sha256 w requests).Admits (MoveStep sha256 ctx source m) sched)
    (answer : Response)
    (hanswer : ((Server.start sha256 w requests).run sched).result? m = some (.ok answer)) :
  ∃ version, answer = .moved source target version ∧
    Conserves ctx source target m version ((Server.start sha256 w requests).run sched).conf
  := by
  have hinit : MoveInv sha256 ctx source target m (Server.start sha256 w requests).conf := by
    refine ⟨⟨hhistory, fun i d p v hhead => by cases hhead⟩, .nil, ?_, ?_, ?_, ?_, ?_⟩
    · exact fun row hrow => by cases hrow
    · exact fun o ho => by cases ho
    · exact fun obj hobj => by cases hobj
    · exact fun obj hobj => by cases hobj
    · exact fun row hrow => by cases hrow
  have hsteps := Pool.admits_and.mpr ⟨start_steps sha256 w requests sched, hcond⟩
  obtain ⟨-, hinv⟩ := hsteps.inv (I := MoveInv sha256 ctx source target m)
    (fun cf i r hr hinv => hinv.step hr.1 hrace hplaces hr.2) hinit
  obtain ⟨c, request, hi, hend, -⟩ := start_result hanswer
  obtain ⟨c', params, hi', hsource, htarget⟩ := hrace.move
  rw [hi, Option.some.injEq, Prod.mk.injEq] at hi'
  obtain ⟨rfl, rfl⟩ := hi'
  obtain ⟨moved, hmoved, hpath, -, ⟨deleted, hdeleted, hdpath, hop⟩, hans⟩ := hend
  rw [htarget] at hpath
  rw [hsource] at hdpath
  obtain ⟨o, ho, hhash⟩ := hinv.own.moved moved hmoved hpath
  obtain ⟨o', below, ho', hbelow, hversion, hhash'⟩ := hinv.deleted deleted hdeleted hdpath
  obtain ⟨hmem, hdrive⟩ := hinv.rows moved hmoved
  obtain ⟨hmem', hdrive'⟩ := hinv.rows deleted hdeleted
  refine ⟨moved.version, by rw [hans, hsource, htarget], moved, deleted, below,
    ⟨hmoved, Db.mem_versionsOf.mpr ⟨hmem, hpath, hdrive⟩, rfl⟩,
    ⟨hdeleted, Db.mem_versionsOf.mpr ⟨hmem', hdpath, hdrive'⟩, hop⟩, hbelow, hversion, ?_⟩
  rw [hhash, hhash', hinv.own.agree o o' ho ho']

theorem sampleMove_race :
  MoveRace sampleContext "/f".toList "/g".toList 0 [sampleMove, sampleWrite [97] none]
  := by
  constructor
  · intro c hc
    simp only [List.mem_cons, List.not_mem_nil, or_false] at hc
    obtain rfl | rfl := hc
    · exact ⟨rfl, rfl, rfl⟩
    · exact ⟨rfl, rfl, rfl⟩
  · exact ⟨sampleContext, _, rfl, by decide, by decide⟩
  · intro i c request hi hne
    match i with
    | 0 => exact absurd rfl hne
    | 1 =>
        cases hi
        exact ⟨trivial, by decide⟩
    | i + 2 => cases hi

theorem sampleMove_places :
  MovePlaces sampleHash sampleContext "/f".toList "/g".toList
  := by
  constructor
  · decide
  · intro bytes
    unfold sampleHash
    split
    · decide +kernel
    · decide +kernel
    · decide +kernel

/-- `/f` is written, then moved to `/g`. -/
theorem move_conserves_sampleMove :
  ∃ version, Response.moved "/f".toList "/g".toList 1 = .moved "/f".toList "/g".toList version ∧
    Conserves sampleContext "/f".toList "/g".toList 0 version
      ((Server.start sampleHash World.empty [sampleMove, sampleWrite [97] none]).run
        ([1, 1, 1, 1, 1, 1, 0, 0, 0, 0, 0, 0, 0, 0, 0, 0, 0].map (·, sampleInput))).conf
  := move_conserves sampleHash sampleContext World.empty "/f".toList "/g".toList 0
    [sampleMove, sampleWrite [97] none] sampleMove_race sampleMove_places history_empty _
    (by decide +kernel) _ (by decide +kernel)

end AgentFs

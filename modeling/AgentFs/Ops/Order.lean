import AgentFs.Ops.Protocol

/-!
# Every request keeps the order

One lemma per function of the source follows its segments and says which history it
leaves; the operations are assembled from them.
-/

namespace AgentFs

open Async

/-- An event of no consequence for the order: a test for existence, or the upload of a
content-addressed copy. -/
def Event.Minor : Event → Prop
  | .probe _ _ => True
  | .storeBlob _ _ => True
  | _ => False

theorem Event.Minor.not_changes {ev : Event} (hev : ev.Minor) :
  ¬ ev.Changes
  := by
  cases ev <;> first | exact hev.elim | exact not_false

section

variable {sha256 : Bytes → Text} {ctx : OpContext} {request : Request} {h : List Event}

theorem Clean.append {n : List Event} (hn : ∀ ev ∈ n, ev.Minor) (hclean : Clean h) :
  Clean (n ++ h)
  := by
  intro ev hev
  obtain hev | hev := List.mem_append.mp hev
  · exact (hn ev hev).not_changes
  · exact hclean ev hev

theorem Clean.read {loc : Loc} {obj : Option Obj} (hclean : Clean h) :
  Clean (.readObject loc obj :: h)
  := hclean.cons not_false

theorem pending_read {path : Text} {loc : Loc} {obj : Option Obj} :
  ctx.Pending path (.readObject loc obj :: h) ↔ ctx.Pending path h
  := by
  apply pending_cons_of_not_changes
  exact not_false

theorem pending_allocate {path d p : Text} {v : Nat} :
  ctx.Pending path (.allocate d p v :: h) ↔ ctx.Pending path h
  := by
  apply pending_cons_of_not_changes
  exact not_false

theorem Request.OpenAt.read {path : Text} {loc : Loc} {obj : Option Obj}
    (hopen : request.OpenAt ctx path h) :
  request.OpenAt ctx path (.readObject loc obj :: h)
  := hopen.cons not_false

theorem Request.Checked.append (n : List Event) (hchecked : request.Checked ctx h) :
  request.Checked ctx (n ++ h)
  := fun p e hp => List.mem_append_right n (hchecked p e hp)

theorem Request.Origin.append (n : List Event) {obj : Obj} (horigin : request.Origin ctx h obj) :
  request.Origin ctx (n ++ h) obj
  := by
  constructor
  · intro source hsource
    obtain ⟨o, hread, hbytes⟩ := horigin.1 source hsource
    exact ⟨o, List.mem_append_right n hread, hbytes⟩
  · intro p hp hlocal
    obtain ⟨row, o, hrow, hne, hread, hbytes⟩ := horigin.2 p hp hlocal
    exact ⟨row, o, List.mem_append_right n hrow, hne, List.mem_append_right n hread, hbytes⟩

/-! ### Storage calls -/

theorem assertKeyInsideDrive_follows {backend : Backend} {key : Text} {R : Rule Event}
    {Q : List Event → Unit → Prop} {E : List Event → OpError → Prop}
    (hbad : backend = .local → ¬ KeyInsideDrive key → ∀ info, E h (.validation info))
    (hok : backend ≠ .local ∨ KeyInsideDrive key → Q h ()) :
  (assertKeyInsideDrive backend key).Follows R Q E h
  := by
  unfold assertKeyInsideDrive
  split
  · rename_i hinside
    exact .pure (hok hinside)
  · rename_i hinside
    obtain ⟨hlocal, hkey⟩ := not_or.mp hinside
    split
    · exact .throw (hbad (not_not.mp hlocal) hkey _)
    · exact .throw (hbad (not_not.mp hlocal) hkey _)

theorem getObject_follows {backend : Backend} {key : Text} {R : Rule Event}
    {Q : List Event → Obj → Prop} {E : List Event → OpError → Prop}
    (hread : ∀ obj, R h (.readObject (locate backend key) obj))
    (hbad : backend = .local → ¬ KeyInsideDrive key → ∀ info, E h (.validation info))
    (hfault : R h .fault ∧ E (.fault :: h) .storage)
    (hmissing : E (.readObject (locate backend key) none :: h) (.noSuchKey key))
    (hok : backend ≠ .local ∨ KeyInsideDrive key →
      ∀ obj, Q (.readObject (locate backend key) (some obj) :: h) obj) :
  (getObject backend key).Follows R Q E h
  := by
  apply Fallible.Follows.bind
  apply assertKeyInsideDrive_follows hbad
  intro hinside
  apply Fallible.Follows.atomic
  intro w x
  split
  · exact hfault
  · split
    · exact ⟨hread none, hmissing⟩
    · exact ⟨hread _, hok hinside _⟩

/-- `putObject` reports events of no consequence, then the stored object.  On the local
backend the content-addressed copy comes first. -/
theorem putObject_follows {backend : Backend} {key : Text} {bytes : Bytes}
    {contentType : Option Text} {R : Rule Event} {Q : List Event → PutObjectResult → Prop}
    {E : List Event → OpError → Prop}
    (hminor : ∀ h' ev, ev.Minor → R h' ev)
    (hfault : ∀ h', R h' .fault ∧ E (.fault :: h') .storage)
    (hbad : backend = .local → ¬ KeyInsideDrive key → ∀ info, E h (.validation info))
    (hok : backend ≠ .local ∨ KeyInsideDrive key → ∀ n : List Event, (∀ ev ∈ n, ev.Minor) →
      (backend = .local → Backed sha256 (n ++ h) bytes) →
      R (n ++ h) (.storeObject (locate backend key) ⟨bytes, contentType⟩) ∧
      ∀ result : PutObjectResult, (backend = .local → result.versionId = some (sha256 bytes)) →
        Q (.storeObject (locate backend key) ⟨bytes, contentType⟩ :: (n ++ h)) result) :
  (putObject sha256 backend key bytes contentType).Follows R Q E h
  := by
  cases backend with
  | «local» =>
      apply Fallible.Follows.bind
      apply assertKeyInsideDrive_follows hbad
      intro hinside
      have hupload : ∀ n : List Event, (∀ ev ∈ n, ev.Minor) → Backed sha256 (n ++ h) bytes →
          (do
            uploadAt (locate .local key) ⟨bytes, contentType⟩
            pure ⟨some (sha256 bytes), some (sha256 bytes)⟩ : Op PutObjectResult).Follows
              R Q E (n ++ h) := by
        intro n hn hbacked
        apply Fallible.Follows.bind
        apply Fallible.Follows.atomic
        intro w x
        split
        · exact hfault _
        · obtain ⟨hrule, hQ⟩ := hok hinside n hn (fun _ => hbacked)
          exact ⟨hrule, hQ _ (fun _ => rfl)⟩
      apply Fallible.Follows.bind
      apply Fallible.Follows.atomic
      intro w x
      split
      · exact hfault _
      · refine ⟨hminor _ _ trivial, ?_⟩
        dsimp only
        split
        · apply Fallible.Follows.bind
          apply Fallible.Follows.atomic
          intro w x
          split
          · exact hfault _
          · refine ⟨hminor _ _ trivial, ?_⟩
            exact hupload [.storeBlob _ _, .probe _ _] (by simp [Event.Minor])
              (.inr List.mem_cons_self)
        · rename_i hfound
          apply hupload [.probe _ _] (by simp [Event.Minor])
          left
          rw [Bool.not_eq_false] at hfound
          rw [hfound]
          exact List.mem_cons_self
  | s3 versioningEnabled =>
      apply Fallible.Follows.atomic
      intro w x
      split
      · exact hfault _
      · obtain ⟨hrule, hQ⟩ := hok (.inl (by simp)) [] (by simp) (fun hlocal => by cases hlocal)
        exact ⟨hrule, hQ _ (fun hlocal => by cases hlocal)⟩

theorem obeys_of_minor (h : List Event) (ev : Event) (hev : ev.Minor) :
  Obeys sha256 ctx request h ev
  := by
  cases ev <;> first | exact hev.elim | trivial

theorem obeys_fault (h : List Event) :
  Obeys sha256 ctx request h .fault ∧ request.Fails ctx (.fault :: h) .storage
  := ⟨trivial, .fault⟩

/-! ### Versions -/

/-- The check is the first event of a request. -/
theorem assertExpectedVersion_follows {path : Text} {expectedVersion : Int}
    {Q : List Event → Nat → Prop} (hcheck : request.check = some (path, expectedVersion))
    (hok : ∀ n, Q [.checkVersion ctx.driveId path expectedVersion true] n) :
  (assertExpectedVersion ctx path expectedVersion).Follows (Obeys sha256 ctx request) Q
    (request.Fails ctx) []
  := by
  apply Fallible.Follows.atomic
  intro w x
  split
  · exact ⟨⟨rfl, rfl, hcheck⟩, hok _⟩
  · refine ⟨⟨rfl, rfl, hcheck⟩, trivial, .inl ?_⟩
    have hclean : Clean [.checkVersion ctx.driveId path expectedVersion false] :=
      .cons not_false .nil
    exact hclean.settled

theorem checkExpectedVersion_follows {path : Text} {expectedVersion : Option Int}
    {Q : List Event → Unit → Prop}
    (hcheck : request.check = expectedVersion.map (path, ·))
    (hok : ∀ h, request.Checked ctx h → Clean h → Q h ()) :
  (checkExpectedVersion ctx path expectedVersion).Follows (Obeys sha256 ctx request) Q
    (request.Fails ctx) []
  := by
  cases expectedVersion with
  | none =>
      apply Fallible.Follows.pure
      apply hok [] _ .nil
      intro p e hp
      rw [hcheck] at hp
      cases hp
  | some expected =>
      apply Fallible.Follows.bind
      apply assertExpectedVersion_follows hcheck
      intro _
      apply Fallible.Follows.pure
      have hclean : Clean [.checkVersion ctx.driveId path expected true] :=
        .cons not_false .nil
      apply hok _ _ hclean
      intro p e hp
      rw [hcheck] at hp
      cases hp
      exact List.mem_cons_self

/-- `createVersion` picks a number, then commits the row or fails. -/
theorem createVersion_follows {params : VersionParams} {Q : List Event → Nat → Prop}
    (hpath : request.target? = some params.path ∨ request.removed? = some params.path)
    (hchecked : request.Checked ctx h) (hpending : ctx.Pending params.path h)
    (hopen : request.OpenAt ctx params.path h)
    (hdocuments : ∀ version now db,
      DocumentsStore sha256 ctx request (.allocate ctx.driveId params.path version :: h)
          (versionRow ctx params version now db) ∨
        DocumentsDelete ctx request (.allocate ctx.driveId params.path version :: h)
          (versionRow ctx params version now db))
    (hok : ∀ row, row.path = params.path → row.operation = params.operation →
      request.Settled ctx (.commit row :: .allocate ctx.driveId params.path row.version :: h) →
        Q (.commit row :: .allocate ctx.driveId params.path row.version :: h) row.version) :
  (createVersion ctx params).Follows (Obeys sha256 ctx request) Q (request.Fails ctx) h
  := by
  apply Fallible.Follows.bind
  apply Fallible.Follows.atomic
  intro w x
  refine ⟨⟨hchecked, rfl, hpending, hpath⟩, ?_⟩
  apply Fallible.Follows.bind
  apply Fallible.Follows.atomic
  intro w' x'
  split
  · refine ⟨⟨rfl, rfl, ?_, hdocuments _ _ _⟩, ?_⟩
    · exact pending_allocate.mpr hpending
    apply Fallible.Follows.pure
    apply hok (versionRow ctx params _ x'.now w'.db) rfl rfl
    apply Request.OpenAt.commit
    exact hopen.cons not_false
  · rename_i e _
    refine ⟨rfl, ?_, .inr ⟨_, rfl, trivial⟩⟩
    unfold versionError
    split
    · trivial
    · rename_i hne
      exact .inr ⟨_, _, _, List.mem_cons_self, hne⟩

theorem lastSeen_cons_of_none {loc : Loc} {ev : Event} (hev : ev.seen loc = none) :
  lastSeen loc (ev :: h) = lastSeen loc h
  := by
  unfold lastSeen
  rw [List.findSome?_cons, hev]

theorem lastSeen_cons_of_some {loc : Loc} {ev : Event} {o : Option Obj}
    (hev : ev.seen loc = some o) :
  lastSeen loc (ev :: h) = some o
  := by
  unfold lastSeen
  rw [List.findSome?_cons, hev]

/-- Storing new contents of the target and recording them. -/
theorem storeVersion_follows {path : Text} {operation : Operation} {bytes : Bytes}
    {message diffSummary : Option Text} {Q : List Event → Nat → Prop}
    (htarget : request.target? = some path) (hoperation : operation ≠ .delete)
    (hchecked : request.Checked ctx h) (hclean : Clean h)
    (horigin : ∀ obj : Obj, obj.bytes = bytes → request.Origin ctx h obj)
    (hok : ∀ row h', row.path = path → row.operation ≠ .delete →
      request.Settled ctx (.commit row :: h') → Q (.commit row :: h') row.version) :
  (storeVersion sha256 ctx path operation bytes message diffSummary).Follows
    (Obeys sha256 ctx request) Q (request.Fails ctx) h
  := by
  apply Fallible.Follows.bind
  apply putObject_follows obeys_of_minor obeys_fault
  · intro hlocal hkey info
    refine ⟨fun hadm => ?_, .inl hclean.settled⟩
    obtain hne | hinside := hadm.1 path htarget
    · exact hne hlocal
    · exact hkey hinside
  · intro _ n hn hbacked
    refine ⟨⟨hchecked.append n, hclean.append hn, (horigin _ rfl).append n, hbacked, path,
      htarget, rfl⟩, ?_⟩
    intro result hresult
    apply createVersion_follows (.inl htarget)
    · exact (hchecked.append n).cons
    · exact pending_storeObject
    · exact (hclean.append hn).settled.storeObject htarget
    · intro version now db
      left
      constructor
      · exact hoperation
      · exact htarget
      · refine ⟨⟨bytes, some (detectMimeType path)⟩, ?_, rfl⟩
        rw [lastSeen_cons_of_none rfl]
        exact lastSeen_cons_of_some (by simp [Event.seen, OpContext.place, versionRow])
      · intro hlocal
        refine ⟨⟨bytes, some (detectMimeType path)⟩, ?_, ?_⟩
        · exact List.mem_cons_of_mem _ List.mem_cons_self
        · simp [versionRow, hresult hlocal]
    · intro row hpath hop
      exact hok row _ hpath (hop ▸ hoperation)

/-- The end of an operation that has recorded a version. -/
theorem answer_follows {answer : Response} {row : FileVersionRow} (hcommit : .commit row ∈ h)
    (hsettled : request.Settled ctx h)
    (hanswered : request.Answered sha256 ctx (.silent :: h) answer) :
  (do afterCommit; pure answer : Op Response).Follows (Obeys sha256 ctx request)
    (request.Ends sha256 ctx) (request.Fails ctx) h
  := by
  have hsilent : request.Settled ctx (.silent :: h) := hsettled.cons not_false
  apply Fallible.Follows.bind
  apply Fallible.Follows.atomic
  intro w x
  split
  · exact ⟨trivial, .inl ⟨row, List.mem_cons_of_mem _ hcommit⟩, .inl hsilent⟩
  · exact ⟨trivial, hanswered, hsilent⟩

/-! ### The operations -/

theorem Request.Fails.orNotFound {path : Text} {loc : Loc} {key : Text} :
  request.Fails ctx (.readObject loc none :: h) (AgentFs.orNotFound path (.noSuchKey key))
  := ⟨.inl ⟨loc, List.mem_cons_self⟩, .inr ⟨_, rfl, trivial⟩⟩

/-- Reading the current contents before changing them. -/
theorem readCurrent_follows {path : Text} {Q : List Event → Obj → Prop}
    (htarget : request.target? = some path ∨ ¬ request.Admissible ctx) (hclean : Clean h)
    (hok : ∀ obj, Q (.readObject (ctx.place path) (some obj) :: h) obj) :
  ((getObject ctx.backend (ctx.key path)).mapError (orNotFound path)).Follows
    (Obeys sha256 ctx request) Q (request.Fails ctx) h
  := by
  apply Fallible.Follows.mapError
  apply getObject_follows (fun _ => .inl hclean)
  · intro hlocal hkey info
    refine ⟨?_, .inl hclean.settled⟩
    obtain htarget | hadm := htarget
    · intro hadm
      obtain hne | hinside := hadm.1 path htarget
      · exact hne hlocal
      · exact hkey hinside
    · exact hadm
  · exact obeys_fault _
  · exact .orNotFound
  · exact fun _ => hok

theorem origin_of_none {obj : Obj} (hsource : request.source? = none)
    (hrevert : ∀ p, request ≠ .revert p) :
  request.Origin ctx h obj
  := by
  constructor
  · intro source hs
    rw [hsource] at hs
    cases hs
  · intro p hp
    exact absurd hp (hrevert p)

theorem dedupVersion_follows {path contentHash : Text} {expectedVersion : Option Int}
    {Q : List Event → Option Nat → Prop}
    (hcheck : request.check = expectedVersion.map (path, ·))
    (hdedup : ∀ h row current, .readHead ctx.driveId path (some row) ∈ h → Clean h →
      row.contentHash = some contentHash → Q h (some current))
    (hok : ∀ h, request.Checked ctx h → Clean h → Q h none) :
  (dedupVersion ctx path contentHash expectedVersion).Follows (Obeys sha256 ctx request) Q
    (request.Fails ctx) []
  := by
  cases expectedVersion with
  | none =>
      apply Fallible.Follows.pure
      apply hok [] _ .nil
      intro p e hp
      rw [hcheck] at hp
      cases hp
  | some expected =>
      apply Fallible.Follows.bind
      apply assertExpectedVersion_follows hcheck
      intro current
      have hclean : Clean [.checkVersion ctx.driveId path expected true] :=
        .cons not_false .nil
      have hchecked : request.Checked ctx [.checkVersion ctx.driveId path expected true] := by
        intro p e hp
        rw [hcheck] at hp
        cases hp
        exact List.mem_cons_self
      split
      · apply Fallible.Follows.bind
        apply Fallible.Follows.atomic
        intro w x
        refine ⟨trivial, ?_⟩
        apply Fallible.Follows.pure
        split
        · rename_i hhash
          obtain ⟨row, hhead, hrow⟩ := Option.bind_eq_some_iff.mp hhash
          dsimp only
          rw [hhead]
          exact hdedup _ row _ List.mem_cons_self (hclean.cons not_false) hrow
        · exact hok _ hchecked.cons (hclean.cons not_false)
      · exact .pure (hok _ hchecked hclean)

theorem writeInternal_follows {params : WriteRawParams} {opts : WriteOpts}
    (hcheck : request.check = params.expectedVersion.map (normalizePath params.path, ·))
    (htarget : request.target? = some (normalizePath params.path))
    (hbytes : request.bytes? = some params.bytes)
    (hadm : request.Admissible ctx → params.bytes.length ≤ opts.maxSize)
    (hanswered : ∀ h answer, request.Answered sha256 ctx h answer ↔
      ∃ path, request.target? = some path ∧ (Stored path h ∨
        ∃ bytes row, request.bytes? = some bytes ∧ .readHead ctx.driveId path (some row) ∈ h ∧
          row.contentHash = some (sha256 bytes)))
    (horigin : ∀ h obj, request.Origin ctx h obj) :
  (writeInternal sha256 ctx params opts).Follows (Obeys sha256 ctx request)
    (request.Ends sha256 ctx) (request.Fails ctx) []
  := by
  unfold writeInternal
  dsimp only
  split
  · rename_i hsize
    apply Fallible.Follows.throw
    refine ⟨fun h => ?_, .inl Clean.nil.settled⟩
    have hle := hadm h
    omega
  · apply Fallible.Follows.bind
    apply dedupVersion_follows hcheck
    · intro h row current hread hclean hhash
      refine ⟨(hanswered _ _).mpr ⟨_, htarget, .inr ?_⟩, hclean.settled⟩
      exact ⟨_, row, hbytes, hread, hhash⟩
    · intro h hchecked hclean
      apply Fallible.Follows.bind
      apply storeVersion_follows htarget (by simp) hchecked hclean (fun _ _ => horigin _ _)
      intro row h' hpath hop hsettled
      apply answer_follows List.mem_cons_self hsettled
      refine (hanswered _ _).mpr ⟨_, htarget, .inl ?_⟩
      exact ⟨row, by simp, hpath, hop⟩

theorem write_follows (params : WriteParams) :
  (write sha256 ctx params).Follows (Obeys sha256 ctx (.write params))
    ((Request.write params).Ends sha256 ctx) ((Request.write params).Fails ctx) []
  := writeInternal_follows rfl rfl rfl (fun hadm => hadm.2) (fun _ _ => Iff.rfl)
    (fun _ _ => origin_of_none rfl (by simp))

theorem writeRaw_follows (limit : WriteOpts) (params : WriteRawParams) :
  (writeRaw sha256 limit ctx params).Follows (Obeys sha256 ctx (.writeRaw limit params))
    ((Request.writeRaw limit params).Ends sha256 ctx)
    ((Request.writeRaw limit params).Fails ctx) []
  := writeInternal_follows rfl rfl rfl (fun hadm => hadm.2) (fun _ _ => Iff.rfl)
    (fun _ _ => origin_of_none rfl (by simp))

theorem edit_follows (params : EditParams) :
  (edit sha256 ctx params).Follows (Obeys sha256 ctx (.edit params))
    ((Request.edit params).Ends sha256 ctx) ((Request.edit params).Fails ctx) []
  := by
  apply Fallible.Follows.bind
  apply checkExpectedVersion_follows rfl
  intro h hchecked hclean
  apply Fallible.Follows.bind
  apply readCurrent_follows (.inl rfl) hclean
  intro object
  dsimp only
  split
  · exact .throw ⟨trivial, .inl hclean.read.settled⟩
  · split
    · exact .throw ⟨trivial, .inl hclean.read.settled⟩
    · apply Fallible.Follows.bind
      apply storeVersion_follows rfl (by simp) hchecked.cons hclean.read
        (fun _ _ => origin_of_none rfl (by simp))
      intro row h' hpath hop hsettled
      apply answer_follows List.mem_cons_self hsettled
      exact ⟨_, rfl, .inl ⟨row, by simp, hpath, hop⟩⟩

theorem append_follows (params : AppendParams) :
  (append sha256 ctx params).Follows (Obeys sha256 ctx (.append params))
    ((Request.append params).Ends sha256 ctx) ((Request.append params).Fails ctx) []
  := by
  apply Fallible.Follows.bind
  apply checkExpectedVersion_follows rfl
  intro h hchecked hclean
  apply Fallible.Follows.bind
  apply readCurrent_follows (.inl rfl) hclean
  intro object
  apply Fallible.Follows.bind
  apply storeVersion_follows rfl (by simp) hchecked.cons hclean.read
    (fun _ _ => origin_of_none rfl (by simp))
  intro row h' hpath hop hsettled
  apply answer_follows List.mem_cons_self hsettled
  exact ⟨_, rfl, .inl ⟨row, by simp, hpath, hop⟩⟩

theorem getObjectVersion_follows {key versionId : Text} {Q : List Event → Obj → Prop}
    (hrevert : ∃ params, request = .revert params) (hadm : ¬ request.Admissible ctx)
    (hclean : Clean h)
    (hok : ∀ obj h', Clean h' → (∀ ev ∈ h, ev ∈ h') →
      (ctx.backend = .local →
        .readObject (locate .local (blobKey versionId)) (some obj) ∈ h') → Q h' obj) :
  (getObjectVersion ctx.backend key versionId).Follows (Obeys sha256 ctx request) Q
    (request.Fails ctx) h
  := by
  generalize ctx.backend = backend at hok
  cases backend with
  | «local» =>
      apply Fallible.Follows.bind
      apply assertKeyInsideDrive_follows (fun _ _ _ => ⟨hadm, .inl hclean.settled⟩)
      intro _
      apply Fallible.Follows.bind
      apply assertKeyInsideDrive_follows (fun _ _ _ => ⟨hadm, .inl hclean.settled⟩)
      intro _
      apply Fallible.Follows.atomic
      intro w x
      split
      · exact ⟨trivial, .fault⟩
      · split
        · exact ⟨.inl hclean, .missing⟩
        · refine ⟨.inl hclean, hok _ _ hclean.read ?_ ?_⟩
          · exact fun ev hev => List.mem_cons_of_mem _ hev
          · exact fun _ => List.mem_cons_self
  | s3 versioningEnabled =>
      apply Fallible.Follows.atomic
      intro w x
      split
      · exact ⟨trivial, .fault⟩
      · split
        · exact ⟨trivial, .inr hrevert, .inl (hclean.settled.cons not_false)⟩
        · refine ⟨trivial, hok _ _ (hclean.cons not_false) ?_ ?_⟩
          · exact fun ev hev => List.mem_cons_of_mem _ hev
          · exact fun hlocal => by cases hlocal

theorem revert_follows (params : RevertParams) :
  (revert sha256 ctx params).Follows (Obeys sha256 ctx (.revert params))
    ((Request.revert params).Ends sha256 ctx) ((Request.revert params).Fails ctx) []
  := by
  have hadm : ¬ (Request.revert params).Admissible ctx := fun h => h.2
  unfold revert
  dsimp only
  split
  · exact .throw ⟨hadm, .inl Clean.nil.settled⟩
  · apply Fallible.Follows.bind
    apply checkExpectedVersion_follows rfl
    intro h hchecked hclean
    apply Fallible.Follows.bind
    apply Fallible.Follows.atomic
    intro w x
    split
    · rename_i row _
      refine ⟨trivial, ?_⟩
      have hclean' : Clean (.readRow ctx.driveId (normalizePath params.path) params.version
          (some row) :: h) := hclean.cons not_false
      dsimp only
      split
      · exact .throw ⟨hadm, .inl hclean'.settled⟩
      · rename_i hhandle
        apply Fallible.Follows.bind
        apply getObjectVersion_follows ⟨params, rfl⟩ hadm hclean'
        intro obj h' hclean'' hmem hread
        apply Fallible.Follows.bind
        apply storeVersion_follows rfl (by simp) _ hclean''
        · intro o ho
          constructor
          · exact fun _ hsource => by cases hsource
          · intro p hp hlocal
            cases hp
            exact ⟨row, obj, hmem _ List.mem_cons_self, hhandle, hread hlocal, ho.symm⟩
        · intro row' h'' hpath hop hsettled
          apply answer_follows List.mem_cons_self hsettled
          exact ⟨_, rfl, .inl ⟨row', by simp, hpath, hop⟩⟩
        · exact fun p e hp => hmem _ (List.mem_cons_of_mem _ (hchecked p e hp))
    · exact ⟨trivial, .inr ⟨params, rfl⟩, .inl (hclean.settled.cons not_false)⟩

/-- The common part of `cp` and `mv`. -/
theorem copyVersion_follows {source target message : Text} {Q : List Event → Nat → Prop}
    (hsource : request.source? = some source) (htarget : request.target? = some target)
    (hrevert : ∀ p, request ≠ .revert p) (hadm : ¬ request.Admissible ctx)
    (hchecked : request.Checked ctx h) (hclean : Clean h)
    (hok : ∀ row h', row.path = target → row.operation ≠ .delete → h ⊆ h' →
      (∀ row', .commit row' ∉ h') → request.Settled ctx (.commit row :: h') → Q (.commit row :: h') row.version) :
  (copyVersion sha256 ctx source target message).Follows (Obeys sha256 ctx request) Q
    (request.Fails ctx) h
  := by
  apply Fallible.Follows.bind
  apply Fallible.Follows.bind
  apply assertKeyInsideDrive_follows (fun _ _ _ => ⟨hadm, .inl hclean.settled⟩)
  intro _
  apply Fallible.Follows.bind
  apply assertKeyInsideDrive_follows (fun _ _ _ => ⟨hadm, .inl hclean.settled⟩)
  intro htargetKey
  have hguard : ctx.backend = .local → ¬ KeyInsideDrive (ctx.key target) →
      ∀ h' info, request.Fails ctx h' (.validation info) := by
    intro hlocal hkey
    obtain hne | hinside := htargetKey
    · exact absurd hlocal hne
    · exact absurd hinside hkey
  apply Fallible.Follows.bind
  apply getObject_follows (fun _ => .inl hclean)
    (fun _ _ _ => ⟨hadm, .inl hclean.settled⟩) (obeys_fault _) .missing
  intro _ src
  apply putObject_follows obeys_of_minor obeys_fault
    (fun hlocal hkey info => hguard hlocal hkey _ info)
  intro _ n hn hbacked
  have hchecked' : request.Checked ctx (n ++ .readObject (ctx.place source) (some src) :: h) :=
    hchecked.cons.append n
  have horigin : request.Origin ctx (.readObject (ctx.place source) (some src) :: h)
      ⟨src.bytes, src.contentType⟩ := by
    constructor
    · intro source' hsource'
      rw [hsource] at hsource'
      cases hsource'
      exact ⟨src, List.mem_cons_self, rfl⟩
    · exact fun p hp => absurd hp (hrevert p)
  refine ⟨⟨hchecked', hclean.read.append hn, horigin.append n, hbacked, target, htarget, rfl⟩, ?_⟩
  intro result hresult
  have hopen : request.OpenAt ctx target (.storeObject (ctx.place target)
      ⟨src.bytes, src.contentType⟩ :: (n ++ .readObject (ctx.place source) (some src) :: h)) :=
    (hclean.read.append hn).settled.storeObject htarget
  apply Fallible.Follows.bind
  apply getObject_follows (fun _ => .inr ⟨target, htarget, rfl⟩)
    (fun hlocal hkey info => hguard hlocal hkey _ info) (obeys_fault _) .missing
  intro _ head
  apply Fallible.Follows.bind
  apply getObject_follows (fun _ => .inr ⟨target, htarget, rfl⟩)
    (fun hlocal hkey info => hguard hlocal hkey _ info) (obeys_fault _) .missing
  intro _ obj
  apply createVersion_follows (.inl htarget)
  · exact hchecked'.cons.cons.cons
  · rw [pending_read, pending_read]
    exact pending_storeObject
  · exact hopen.read.read
  · intro version now db
    left
    constructor
    · simp [versionRow]
    · exact htarget
    · refine ⟨obj, ?_, rfl⟩
      rw [lastSeen_cons_of_none rfl]
      exact lastSeen_cons_of_some (by simp [Event.seen, OpContext.place, versionRow])
    · intro hlocal
      refine ⟨⟨src.bytes, src.contentType⟩, ?_, ?_⟩
      · simp [versionRow, OpContext.place]
      · simp [versionRow, hresult hlocal]
  · intro row hpath hop
    apply hok row _ hpath (by simp [hop])
    · intro ev hev
      simp [hev]
    · intro row' hrow'
      simp only [List.mem_cons, reduceCtorEq, false_or] at hrow'
      exact hclean.read.append hn _ hrow' trivial

/-- Removing the object of a path and recording the delete. -/
theorem deleteVersion_follows {path : Text} {message : Option Text}
    {Q : List Event → Unit → Prop} (hremoved : request.removed? = some path)
    (hstored : ∀ target, request.target? = some target → Stored target h)
    (honly : ∀ row, .commit row ∈ h → request.target? = some row.path)
    (hadm : ¬ request.Admissible ctx) (hchecked : request.Checked ctx h)
    (hsettled : request.Settled ctx h)
    (hok : ∀ row h', row.path = path → row.operation = .delete → h ⊆ h' →
      request.Settled ctx (.commit row :: h') → Q (.commit row :: h') ()) :
  (deleteVersion ctx path message).Follows (Obeys sha256 ctx request) Q (request.Fails ctx) h
  := by
  apply Fallible.Follows.bind
  apply Fallible.Follows.bind
  apply assertKeyInsideDrive_follows (fun _ _ _ => ⟨hadm, .inl hsettled⟩)
  intro _
  apply Fallible.Follows.atomic
  intro w x
  split
  · exact ⟨trivial, .fault⟩
  · refine ⟨⟨hchecked, hstored, honly, path, hremoved, rfl⟩, ?_⟩
    apply Fallible.Follows.bind
    apply createVersion_follows (.inr hremoved) hchecked.cons pending_removeObject
      (hsettled.removeObject hremoved)
    · intro version now db
      right
      constructor
      · rfl
      · exact hremoved
      · rw [lastSeen_cons_of_none rfl]
        exact lastSeen_cons_of_some (by simp [Event.seen, OpContext.place, versionRow])
      · rfl
    · intro row hpath hop hsettled'
      apply Fallible.Follows.pure
      apply hok row _ hpath hop _ hsettled'
      intro ev hev
      simp [hev]

theorem cp_follows (params : CpParams) :
  (cp sha256 ctx params).Follows (Obeys sha256 ctx (.cp params))
    ((Request.cp params).Ends sha256 ctx) ((Request.cp params).Fails ctx) []
  := by
  have hadm : ¬ (Request.cp params).Admissible ctx := fun h => h.2
  unfold cp
  dsimp only
  split
  · exact .throw ⟨hadm, .inl Clean.nil.settled⟩
  · apply Fallible.Follows.bind
    apply checkExpectedVersion_follows rfl
    intro h hchecked hclean
    apply Fallible.Follows.bind
    apply copyVersion_follows rfl rfl (by simp) hadm hchecked hclean
    intro row h' hpath hop _ _ hsettled
    apply answer_follows List.mem_cons_self hsettled
    exact ⟨_, rfl, .inl ⟨row, by simp, hpath, hop⟩⟩

theorem mv_follows (params : MvParams) :
  (mv sha256 ctx params).Follows (Obeys sha256 ctx (.mv params))
    ((Request.mv params).Ends sha256 ctx) ((Request.mv params).Fails ctx) []
  := by
  have hadm : ¬ (Request.mv params).Admissible ctx := fun h => h.2
  unfold mv
  dsimp only
  split
  · exact .throw ⟨hadm, .inl Clean.nil.settled⟩
  · apply Fallible.Follows.bind
    apply checkExpectedVersion_follows rfl
    intro h hchecked hclean
    apply Fallible.Follows.bind
    apply copyVersion_follows rfl rfl (by simp) hadm hchecked hclean
    intro row h' hpath hop hmem hnone hsettled
    have hchecked' : (Request.mv params).Checked ctx (.commit row :: h') :=
      Request.Checked.cons (fun p e hp => hmem (hchecked p e hp))
    have hstored : ∀ target, (Request.mv params).target? = some target →
        Stored target (.commit row :: h') := by
      intro target htarget
      cases htarget
      exact ⟨row, List.mem_cons_self, hpath, hop⟩
    have honly : ∀ row', .commit row' ∈ .commit row :: h' →
        (Request.mv params).target? = some row'.path := by
      intro row' hrow'
      obtain heq | hrow' := List.mem_cons.mp hrow'
      · cases heq
        exact congrArg some hpath.symm
      · exact absurd hrow' (hnone row')
    apply Fallible.Follows.bind
    apply deleteVersion_follows rfl hstored honly hadm hchecked' hsettled
    intro row' h'' hpath' hop' hmem' hsettled'
    apply answer_follows List.mem_cons_self hsettled'
    refine ⟨row, ?_, hpath, hop, ⟨row', by simp, hpath', hop'⟩, rfl⟩
    have hrow : .commit row ∈ h'' := hmem' List.mem_cons_self
    simp [hrow]

theorem rm_follows (params : RmParams) :
  (rm ctx params).Follows (Obeys sha256 ctx (.rm params))
    ((Request.rm params).Ends sha256 ctx) ((Request.rm params).Fails ctx) []
  := by
  have hadm : ¬ (Request.rm params).Admissible ctx := fun h => h.2
  apply Fallible.Follows.bind
  apply checkExpectedVersion_follows rfl
  intro h hchecked hclean
  apply Fallible.Follows.bind
  apply deleteVersion_follows rfl (fun _ htarget => by cases htarget)
    (fun row hrow => absurd trivial (hclean _ hrow)) hadm hchecked hclean.settled
  intro row h' hpath hop _ hsettled
  have hsilent : (Request.rm params).Settled ctx (.silent :: .commit row :: h') :=
    hsettled.cons not_false
  apply Fallible.Follows.bind
  apply Fallible.Follows.atomic
  intro w x
  split
  · exact ⟨trivial, .inl ⟨row, by simp⟩, .inl hsilent⟩
  · refine ⟨trivial, ?_⟩
    apply answer_follows (List.mem_cons_of_mem _ List.mem_cons_self) hsilent
    exact ⟨row, by simp, hpath, hop⟩

theorem openRead_follows (path : Text) :
  (openRead ctx path).Follows (Obeys sha256 ctx (.openRead path))
    ((Request.openRead path).Ends sha256 ctx) ((Request.openRead path).Fails ctx) []
  := by
  apply Fallible.Follows.bind
  apply getObject_follows (fun _ => .inl .nil)
    (fun _ _ _ => ⟨fun h => h.2, .inl Clean.nil.settled⟩) (obeys_fault _) .missing
  intro _ object
  apply Fallible.Follows.bind
  apply Fallible.Follows.atomic
  intro w x
  refine ⟨trivial, ⟨object, _, rfl, rfl⟩, ?_⟩
  exact (Clean.nil.read.settled).cons not_false

theorem getRaw_follows (urlPath : Text) :
  (getRaw ctx urlPath).Follows (Obeys sha256 ctx (.getRaw urlPath))
    ((Request.getRaw urlPath).Ends sha256 ctx) ((Request.getRaw urlPath).Fails ctx) []
  := by
  apply Fallible.Follows.bind
  apply readCurrent_follows (.inr fun h => h.2) .nil
  intro object
  apply Fallible.Follows.bind
  apply Fallible.Follows.atomic
  intro w x
  refine ⟨trivial, ⟨object, _, rfl, rfl⟩, ?_⟩
  exact (Clean.nil.read.settled).cons not_false

/-- Every request keeps the order, and its answer or error says how it ended. -/
theorem program_follows (ctx : OpContext) (request : Request) :
  (request.program sha256 ctx).Follows (Obeys sha256 ctx request)
    (request.Ends sha256 ctx) (request.Fails ctx) []
  := by
  cases request with
  | write params => exact write_follows params
  | writeRaw limit params => exact writeRaw_follows limit params
  | edit params => exact edit_follows params
  | append params => exact append_follows params
  | revert params => exact revert_follows params
  | cp params => exact cp_follows params
  | mv params => exact mv_follows params
  | rm params => exact rm_follows params
  | openRead path => exact openRead_follows path
  | getRaw urlPath => exact getRaw_follows urlPath

/-! ### Runs -/

variable {requests : List (OpContext × Request)} {w : World} {sched : List (Nat × Input)}

/-- A step of request `i`: it does what its event says, and keeps the order. -/
structure StepOf (sha256 : Bytes → Text) (requests : List (OpContext × Request)) (cf : Config)
    (i : Nat) (r : Event × World) : Prop where
  lawful : Lawful sha256 cf.state r
  obeys : ∃ ctx request, requests[i]? = some (ctx, request) ∧
    Obeys sha256 ctx request (cf.own i) r.1

/-- How request `i` ended. -/
def EndOf (sha256 : Bytes → Text) (requests : List (OpContext × Request)) (i : Nat)
    (h : List Event) (result : Except OpError Response) : Prop :=
  ∃ ctx request, requests[i]? = some (ctx, request) ∧ match result with
    | .ok answer => request.Ends sha256 ctx h answer
    | .error e => request.Fails ctx h e

theorem start_follows (i : Nat) (p : Prog World Input Event (Except OpError Response))
    (hp : (Server.start sha256 w requests).procs[i]? = some p) :
  p.Follows (fun h ev => ∃ ctx request, requests[i]? = some (ctx, request) ∧
      Obeys sha256 ctx request h ev)
    (EndOf sha256 requests i) ((Server.start sha256 w requests).conf.own i)
  := by
  simp only [Server.start, List.getElem?_map, Option.map_eq_some_iff] at hp
  obtain ⟨⟨ctx, request⟩, hi, rfl⟩ := hp
  have hfollows := @program_follows sha256 ctx request
  apply Prog.Follows.weaken (fun h ev hev => ⟨ctx, request, hi, hev⟩)
  apply Prog.Follows.mono _ hfollows
  rintro h (e | answer) hend
  · exact ⟨ctx, request, hi, hend⟩
  · exact ⟨ctx, request, hi, hend⟩

/-- Every step of every run is a step of one of the requests. -/
theorem start_steps (sha256 : Bytes → Text) (w : World) (requests : List (OpContext × Request))
    (sched : List (Nat × Input)) :
  (Server.start sha256 w requests).Admits (StepOf sha256 requests) sched
  := by
  have hobeys := (Pool.run_follows (@start_follows sha256 requests w) sched).1
  apply Pool.Admits.mono _ (Pool.admits_and.mpr ⟨start_lawful w requests sched, hobeys⟩)
  rintro cf i r ⟨hlawful, hobeys⟩
  exact ⟨hlawful, hobeys⟩

/-- A request that has finished ended as its history says. -/
theorem start_result {i : Nat} {result : Except OpError Response}
    (hi : ((Server.start sha256 w requests).run sched).result? i = some result) :
  EndOf sha256 requests i (((Server.start sha256 w requests).run sched).conf.own i) result
  := Pool.result_follows start_follows hi

end

end AgentFs

import AgentFs.Ops.Law

/-!
# The order of a request

`Obeys` says which event a request may report next, given the events it has reported: the
check of the expected version comes before any change, an object is stored or removed
before its version number is picked, a move records the copy before it removes the source,
and the row that is committed documents what the request has last seen at the place of the
path.  `program_follows` proves it of every
request, together with what its answer or error says about its history.
-/

namespace AgentFs

open Async

/-- The place of a path of the caller's drive. -/
def OpContext.place (ctx : OpContext) (path : Text) : Loc :=
  locate ctx.backend (ctx.key path)

/-! ### What a request is about -/

/-- The path and version of the optimistic check, if the request asks for one. -/
def Request.check : Request → Option (Text × Int)
  | .write p => p.expectedVersion.map (normalizePath p.path, ·)
  | .writeRaw _ p => p.expectedVersion.map (normalizePath p.path, ·)
  | .edit p => p.expectedVersion.map (normalizePath p.path, ·)
  | .append p => p.expectedVersion.map (normalizePath p.path, ·)
  | .revert p => p.expectedVersion.map (normalizePath p.path, ·)
  | .cp p => p.expectedVersion.map (normalizePath p.toPath, ·)
  | .mv p => p.expectedVersion.map (normalizePath p.fromPath, ·)
  | .rm p => p.expectedVersion.map (normalizePath p.path, ·)
  | .openRead _ => none
  | .getRaw _ => none

/-- The path the request stores a new object at. -/
def Request.target? : Request → Option Text
  | .write p => some (normalizePath p.path)
  | .writeRaw _ p => some (normalizePath p.path)
  | .edit p => some (normalizePath p.path)
  | .append p => some (normalizePath p.path)
  | .revert p => some (normalizePath p.path)
  | .cp p => some (normalizePath p.toPath)
  | .mv p => some (normalizePath p.toPath)
  | .rm _ => none
  | .openRead _ => none
  | .getRaw _ => none

/-- The path the request copies its object from. -/
def Request.source? : Request → Option Text
  | .cp p => some (normalizePath p.fromPath)
  | .mv p => some (normalizePath p.fromPath)
  | _ => none

/-- The path the request deletes. -/
def Request.removed? : Request → Option Text
  | .mv p => some (normalizePath p.fromPath)
  | .rm p => some (normalizePath p.path)
  | _ => none

/-- The bytes of a write. -/
def Request.bytes? : Request → Option Bytes
  | .write p => some (textEncode p.content)
  | .writeRaw _ p => some p.bytes
  | _ => none

/-- `write`, `edit` and `append`, in either form of `write`. -/
def Request.Writes : Request → Prop
  | .write _ => True
  | .writeRaw _ _ => True
  | .edit _ => True
  | .append _ => True
  | _ => False

/-- A write that asks for a check stores at the path it checks. -/
theorem Request.Writes.target {request : Request} (h : request.Writes) {p : Text} {e : Int}
    (hcheck : request.check = some (p, e)) :
  request.target? = some p
  := by
  cases request with
  | write params =>
      simp only [Request.check, Option.map_eq_some_iff] at hcheck
      obtain ⟨_, -, heq⟩ := hcheck
      cases heq
      rfl
  | writeRaw limit params =>
      simp only [Request.check, Option.map_eq_some_iff] at hcheck
      obtain ⟨_, -, heq⟩ := hcheck
      cases heq
      rfl
  | edit params =>
      simp only [Request.check, Option.map_eq_some_iff] at hcheck
      obtain ⟨_, -, heq⟩ := hcheck
      cases heq
      rfl
  | append params =>
      simp only [Request.check, Option.map_eq_some_iff] at hcheck
      obtain ⟨_, -, heq⟩ := hcheck
      cases heq
      rfl
  | _ => exact h.elim

/-- A write deletes nothing. -/
theorem Request.Writes.removed {request : Request} (h : request.Writes) :
  request.removed? = none
  := by
  cases request <;> first | rfl | exact h.elim

/-- A request that none of the static checks refuses: the size limit, and on the local
backend the key guard. -/
def Request.Admissible (ctx : OpContext) (request : Request) : Prop :=
  (∀ p, request.target? = some p → ctx.backend ≠ .local ∨ KeyInsideDrive (ctx.key p)) ∧
    match request with
    | .write p => (textEncode p.content).length ≤ maxFileSize.maxSize
    | .writeRaw limit p => p.bytes.length ≤ limit.maxSize
    | .edit _ => True
    | .append _ => True
    | _ => False

/-! ### Histories -/

/-- The object an event shows at a place: the one stored, removed or read there. -/
def Event.seen (loc : Loc) : Event → Option (Option Obj)
  | .readObject l obj => if l = loc then some obj else none
  | .storeBlob l obj => if l = loc then some (some obj) else none
  | .storeObject l obj => if l = loc then some (some obj) else none
  | .removeObject l => if l = loc then some none else none
  | _ => none

/-- What the request has last seen at a place. -/
def lastSeen (loc : Loc) (h : List Event) : Option (Option Obj) :=
  h.findSome? (Event.seen loc)

/-- Whether an event opens (`true`) or closes (`false`) the change of a path: the object
at its place is changed, or a version of it is recorded. -/
def Event.marks (loc : Loc) (path : Text) : Event → Option Bool
  | .storeObject l _ => if l = loc then some true else none
  | .removeObject l => if l = loc then some true else none
  | .commit row => if row.path = path then some false else none
  | _ => none

/-- The request has changed the object of the path and not recorded a version since. -/
def OpContext.Pending (ctx : OpContext) (path : Text) (h : List Event) : Prop :=
  h.findSome? (Event.marks (ctx.place path) path) = some true

/-- An event that changes an object or records a version. -/
def Event.Changes : Event → Prop
  | .storeObject _ _ => True
  | .removeObject _ => True
  | .commit _ => True
  | _ => False

/-- The request has changed nothing. -/
def Clean (h : List Event) : Prop :=
  ∀ ev ∈ h, ¬ ev.Changes

/-- The optimistic check has passed, if the request asks for one. -/
def Request.Checked (ctx : OpContext) (request : Request) (h : List Event) : Prop :=
  ∀ p e, request.check = some (p, e) → .checkVersion ctx.driveId p e true ∈ h

/-- Where the bytes of a stored object come from: a copy stores what it read at its
source, a revert on the local backend what it read at the content-addressed place of the
version it looked up. -/
def Request.Origin (ctx : OpContext) (request : Request) (h : List Event) (obj : Obj) : Prop :=
  (∀ source, request.source? = some source →
    ∃ o, .readObject (ctx.place source) (some o) ∈ h ∧ o.bytes = obj.bytes) ∧
  ∀ p, request = .revert p → ctx.backend = .local →
    ∃ row o, .readRow ctx.driveId (normalizePath p.path) p.version (some row) ∈ h ∧
      row.s3VersionId ≠ [] ∧
      .readObject (locate .local (blobKey row.s3VersionId)) (some o) ∈ h ∧ o.bytes = obj.bytes

/-- A row that is not a delete was committed for the path. -/
def Stored (path : Text) (h : List Event) : Prop :=
  ∃ row, .commit row ∈ h ∧ row.path = path ∧ row.operation ≠ .delete

/-- A delete was committed for the path. -/
def Deleted (path : Text) (h : List Event) : Prop :=
  ∃ row, .commit row ∈ h ∧ row.path = path ∧ row.operation = .delete

section

variable (sha256 : Bytes → Text)

/-- The content-addressed copy of the bytes was there or has been stored. -/
def Backed (h : List Event) (bytes : Bytes) : Prop :=
  .probe (locate .local (blobKey (sha256 bytes))) true ∈ h ∨
    .storeBlob (locate .local (blobKey (sha256 bytes))) ⟨bytes, none⟩ ∈ h

/-- A row that records new contents: its hash is that of the object the request has last
seen at the place, and on the local backend its handle is that of the object stored. -/
structure DocumentsStore (ctx : OpContext) (request : Request) (h : List Event)
    (row : FileVersionRow) : Prop where
  operation : row.operation ≠ .delete
  target : request.target? = some row.path
  hash : ∃ obj, lastSeen (ctx.place row.path) h = some (some obj) ∧
    row.contentHash = some (sha256 obj.bytes)
  handle : ctx.backend = .local →
    ∃ obj, .storeObject (ctx.place row.path) obj ∈ h ∧ row.s3VersionId = sha256 obj.bytes

/-- A row that records a delete. -/
structure DocumentsDelete (ctx : OpContext) (request : Request) (h : List Event)
    (row : FileVersionRow) : Prop where
  operation : row.operation = .delete
  removed : request.removed? = some row.path
  seen : lastSeen (ctx.place row.path) h = some none
  handle : row.s3VersionId = []

/-- The order in which a request reports its events. -/
def Obeys (ctx : OpContext) (request : Request) : Rule Event := fun h ev =>
  match ev with
  | .checkVersion driveId path expected _ =>
      h = [] ∧ driveId = ctx.driveId ∧ request.check = some (path, expected)
  | .readObject loc _ => Clean h ∨ ∃ target, request.target? = some target ∧ loc = ctx.place target
  | .storeObject loc obj =>
      request.Checked ctx h ∧ Clean h ∧ request.Origin ctx h obj ∧
        (ctx.backend = .local → Backed sha256 h obj.bytes) ∧
        ∃ path, request.target? = some path ∧ loc = ctx.place path
  | .removeObject loc =>
      request.Checked ctx h ∧ (∀ target, request.target? = some target → Stored target h) ∧
        (∀ row, .commit row ∈ h → request.target? = some row.path) ∧
        ∃ path, request.removed? = some path ∧ loc = ctx.place path
  | .allocate driveId path _ =>
      request.Checked ctx h ∧ driveId = ctx.driveId ∧ ctx.Pending path h ∧
        (request.target? = some path ∨ request.removed? = some path)
  | .commit row =>
      h.head? = some (.allocate row.driveId row.path row.version) ∧
        row.driveId = ctx.driveId ∧ ctx.Pending row.path h ∧
        (DocumentsStore sha256 ctx request h row ∨ DocumentsDelete ctx request h row)
  | .abort driveId path version _ => h.head? = some (.allocate driveId path version)
  | _ => True

end

/-! ### Answers and errors -/

/-- What the answer of a request says about its history. -/
def Request.Answered (sha256 : Bytes → Text) (ctx : OpContext) (h : List Event) :
    Request → Response → Prop
  | .mv p, answer => ∃ row, .commit row ∈ h ∧ row.path = normalizePath p.toPath ∧
      row.operation ≠ .delete ∧ Deleted (normalizePath p.fromPath) h ∧
      answer = .moved (normalizePath p.fromPath) (normalizePath p.toPath) row.version
  | .rm p, _ => Deleted (normalizePath p.path) h
  | .openRead path, answer => ∃ obj head,
      h = [.readHead ctx.driveId path head, .readObject (ctx.place path) (some obj)] ∧
      answer = .openRead obj.bytes ((head.map (·.version)).getD 0)
        ((head.bind (·.contentHash)).getD []) obj.bytes.length ((head.map (·.createdAt)).getD 0)
  | .getRaw urlPath, answer => ∃ obj head,
      h = [.readHead ctx.driveId (normalizePath urlPath) head,
        .readObject (ctx.place (normalizePath urlPath)) (some obj)] ∧
      answer = .rawFile obj.bytes (head.map (·.version))
        ((head.bind (·.contentHash)).filter (· ≠ []))
  | request, _ => ∃ path, request.target? = some path ∧ (Stored path h ∨
      ∃ bytes row, request.bytes? = some bytes ∧ .readHead ctx.driveId path (some row) ∈ h ∧
        row.contentHash = some (sha256 bytes))

/-- What the error of a request says about its history. -/
def Request.Explained (ctx : OpContext) (request : Request) (h : List Event) : OpError → Prop
  | .editConflict _ => True
  | .storage => .fault ∈ h
  | .notFound _ => (∃ loc, .readObject loc none ∈ h) ∨ ∃ params, request = .revert params
  | .noSuchKey _ => (∃ loc, .readObject loc none ∈ h) ∨ ∃ params, request = .revert params
  | .sql e => (∃ row, .commit row ∈ h) ∨
      ∃ d p v, .abort d p v e ∈ h ∧ e ≠ .unique .fileVersions
  | _ => ¬ request.Admissible ctx

/-- An event that ends a request with an error. -/
def Event.Interrupts : Event → Prop
  | .fault => True
  | .readObject _ none => True
  | .abort _ _ _ _ => True
  | _ => False

/-- No other path that the request writes shares its place with `path`. -/
def Request.Apart (ctx : OpContext) (request : Request) (path : Text) : Prop :=
  ∀ p, request.target? = some p ∨ request.removed? = some p → ctx.place p = ctx.place path →
    p = path

/-- Every change the request has opened is closed. -/
def Request.Settled (ctx : OpContext) (request : Request) (h : List Event) : Prop :=
  ∀ path, request.Apart ctx path → ¬ ctx.Pending path h

/-- The only change that may be open is that of `path`. -/
def Request.OpenAt (ctx : OpContext) (request : Request) (path : Text) (h : List Event) : Prop :=
  ∀ q, request.Apart ctx q → ctx.Pending q h → q = path

/-- The history of a request that has been answered. -/
def Request.Ends (sha256 : Bytes → Text) (ctx : OpContext) (request : Request)
    (h : List Event) (answer : Response) : Prop :=
  request.Answered sha256 ctx h answer ∧ request.Settled ctx h

/-- The history of a request that has failed: its changes are closed, unless the last
event interrupted it. -/
def Request.Fails (ctx : OpContext) (request : Request) (h : List Event) (e : OpError) : Prop :=
  request.Explained ctx h e ∧
    (request.Settled ctx h ∨ ∃ ev, h.head? = some ev ∧ ev.Interrupts)

/-! ### Histories, event by event -/

section

variable {ctx : OpContext} {request : Request} {h : List Event} {ev : Event}

theorem Clean.nil :
  Clean []
  := by
  intro ev hev
  cases hev

theorem Clean.cons (hev : ¬ ev.Changes) (hclean : Clean h) :
  Clean (ev :: h)
  := by
  intro ev' hev'
  obtain rfl | hev' := List.mem_cons.mp hev'
  · exact hev
  · exact hclean ev' hev'

theorem Request.Checked.cons (hchecked : request.Checked ctx h) :
  request.Checked ctx (ev :: h)
  := fun p e hp => List.mem_cons_of_mem _ (hchecked p e hp)

theorem Event.marks_storeObject {l loc : Loc} {obj : Obj} {path : Text} :
  (Event.storeObject l obj).marks loc path = if l = loc then some true else none
  := rfl

theorem Event.marks_removeObject {l loc : Loc} {path : Text} :
  (Event.removeObject l).marks loc path = if l = loc then some true else none
  := rfl

theorem Event.marks_commit {row : FileVersionRow} {loc : Loc} {path : Text} :
  (Event.commit row).marks loc path = if row.path = path then some false else none
  := rfl

theorem Event.marks_of_not_changes (hev : ¬ ev.Changes) (loc : Loc) (path : Text) :
  ev.marks loc path = none
  := by
  cases ev <;> first | rfl | exact absurd trivial hev

theorem pending_iff {path : Text} :
  ctx.Pending path h ↔ h.findSome? (Event.marks (ctx.place path) path) = some true
  := Iff.rfl

/-- An event that changes nothing leaves open what was open. -/
theorem pending_cons_of_not_changes (hev : ¬ ev.Changes) {path : Text} :
  ctx.Pending path (ev :: h) ↔ ctx.Pending path h
  := by
  rw [pending_iff, pending_iff, List.findSome?_cons, Event.marks_of_not_changes hev]

theorem Clean.not_pending (hclean : Clean h) (path : Text) :
  ¬ ctx.Pending path h
  := by
  rw [pending_iff, List.findSome?_eq_none_iff.mpr]
  · simp
  · intro ev hev
    exact Event.marks_of_not_changes (hclean ev hev) _ _

theorem pending_storeObject {path : Text} {obj : Obj} :
  ctx.Pending path (.storeObject (ctx.place path) obj :: h)
  := by
  simp [pending_iff, Event.marks_storeObject]

theorem pending_removeObject {path : Text} :
  ctx.Pending path (.removeObject (ctx.place path) :: h)
  := by
  simp [pending_iff, Event.marks_removeObject]

/-- A commit closes the change of its path and leaves the others. -/
theorem pending_commit {row : FileVersionRow} {path : Text} :
  ctx.Pending path (.commit row :: h) ↔ row.path ≠ path ∧ ctx.Pending path h
  := by
  rw [pending_iff, pending_iff, List.findSome?_cons, Event.marks_commit]
  split
  · rename_i hmark
    split at hmark
    · rename_i hpath
      cases hmark
      simp [hpath]
    · cases hmark
  · rename_i hmark
    split at hmark
    · cases hmark
    · rename_i hpath
      simp [hpath]

theorem Clean.settled (hclean : Clean h) :
  request.Settled ctx h
  := fun path _ => hclean.not_pending path

theorem Request.Settled.cons (hev : ¬ ev.Changes) (hsettled : request.Settled ctx h) :
  request.Settled ctx (ev :: h)
  := by
  intro path hapart hpend
  exact hsettled path hapart ((pending_cons_of_not_changes hev).mp hpend)

theorem Request.OpenAt.cons {path : Text} (hev : ¬ ev.Changes)
    (hopen : request.OpenAt ctx path h) :
  request.OpenAt ctx path (ev :: h)
  := by
  intro q hapart hpend
  exact hopen q hapart ((pending_cons_of_not_changes hev).mp hpend)

/-- Storing the object of the target opens its change only. -/
theorem Request.Settled.storeObject {path : Text} {obj : Obj}
    (htarget : request.target? = some path) (hsettled : request.Settled ctx h) :
  request.OpenAt ctx path (.storeObject (ctx.place path) obj :: h)
  := by
  intro q hapart hpend
  by_cases hplace : ctx.place path = ctx.place q
  · exact (hapart path (.inl htarget) hplace).symm
  · rw [pending_iff, List.findSome?_cons, Event.marks_storeObject, if_neg hplace] at hpend
    exact absurd hpend (hsettled q hapart)

/-- Removing the object of the deleted path opens its change only. -/
theorem Request.Settled.removeObject {path : Text}
    (hremoved : request.removed? = some path) (hsettled : request.Settled ctx h) :
  request.OpenAt ctx path (.removeObject (ctx.place path) :: h)
  := by
  intro q hapart hpend
  by_cases hplace : ctx.place path = ctx.place q
  · exact (hapart path (.inr hremoved) hplace).symm
  · rw [pending_iff, List.findSome?_cons, Event.marks_removeObject, if_neg hplace] at hpend
    exact absurd hpend (hsettled q hapart)

/-- A commit closes the open change. -/
theorem Request.OpenAt.commit {row : FileVersionRow} (hopen : request.OpenAt ctx row.path h) :
  request.Settled ctx (.commit row :: h)
  := by
  intro q hapart hpend
  obtain ⟨hne, hpend⟩ := pending_commit.mp hpend
  exact hne (hopen q hapart hpend).symm

theorem Request.Fails.fault :
  request.Fails ctx (.fault :: h) .storage
  := ⟨List.mem_cons_self, .inr ⟨.fault, rfl, trivial⟩⟩

theorem Request.Fails.missing {loc : Loc} {key : Text} :
  request.Fails ctx (.readObject loc none :: h) (.noSuchKey key)
  := ⟨.inl ⟨loc, List.mem_cons_self⟩, .inr ⟨_, rfl, trivial⟩⟩

end

end AgentFs

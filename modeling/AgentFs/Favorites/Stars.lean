import AgentFs.Context
import AgentFs.Favorites.PathKind

/-!
# Favorites

The stars that users put on files and folders, and the hooks of `rm` and `mv` that keep them in
step with the files.  The file operations are what they leave of the storage and of the `files`
table when no call fails.
-/

namespace AgentFs.Favorites

/-! ### The table -/

/-- A row of the `favorites` table. -/
structure FavoriteRow where
  userId : Text
  driveId : Text
  path : Text
  kind : PathKind
  createdAt : Nat
  deriving DecidableEq, Repr

/-- The primary key. -/
def FavoriteRow.key (r : FavoriteRow) : Text × Text × Text :=
  (r.userId, r.driveId, r.path)

/-- What the operations share. -/
structure State where
  contents : Contents
  favorites : List FavoriteRow
  deriving DecidableEq, Repr

/-- Nothing is stored. -/
def State.empty (reportsDeleted : Bool) : State :=
  ⟨⟨[], [], reportsDeleted, []⟩, []⟩

/-- Insert a star, or set the kind of the one that has its key. -/
def upsertFavorite (row : FavoriteRow) (favorites : List FavoriteRow) : List FavoriteRow :=
  if ∃ r ∈ favorites, r.key = row.key then
    favorites.map (fun r => if r.key = row.key then { r with kind := row.kind } else r)
  else favorites ++ [row]

/-! ### The operations on stars -/

/-- `assertPathInsideDrive`. -/
def assertPathInsideDrive (path : Text) : Except OpError Unit :=
  if '\x00' ∈ path then
    .error (.validation { message := "Path must not contain NUL bytes", field := "path" })
  else if KeyInsideDrive path then .ok ()
  else
    .error (.validation
      { message := "Path must not contain '.' or '..' segments"
        field := "path"
        suggestion :=
          "Use the absolute path of the file inside the drive, e.g. /docs/report.pdf" })

/-- What an operation answers. -/
inductive Reply where
  | favorite (row : Option FavoriteRow)
  | unfavorite (path : Text) (removed : Bool)
  | done
  deriving DecidableEq, Repr

section

variable (ctx : OpContext)

def favoriteAdd (path : Text) (now : Nat) (s : State) : Except OpError (Reply × State) := do
  let path := normalizePath path
  assertPathInsideDrive path
  if path = ['/'] then
    throw (.validation
      { message := "The drive root cannot be a favorite", field := "path" })
  else match s.contents.resolvePathKind ctx.driveId path with
    | none =>
        throw (.notFound
          { message := "File or folder not found: " ++ String.ofList path, path := some path })
    | some kind =>
        let row : FavoriteRow := ⟨ctx.userId, ctx.driveId, path, kind, now⟩
        let favorites := upsertFavorite row s.favorites
        pure (.favorite (favorites.find? (fun r => r.key = row.key)),
          { s with favorites := favorites })

def favoriteRemove (path : Text) (s : State) : Reply × State :=
  let path := normalizePath path
  let key := (ctx.userId, ctx.driveId, path)
  (.unfavorite path (s.favorites.any (fun r => r.key = key)),
    { s with favorites := s.favorites.filter (fun r => r.key ≠ key) })

end

/-! ### The hooks -/

/-- Folders above a path, deepest first. -/
def ancestorFolders (path : Text) : List Text :=
  let parts := (path.splitOn '/').filter (· ≠ [])
  ((List.range parts.length).filter (0 < ·)).reverse.map
    (fun i => '/' :: ['/'].intercalate (parts.take i))

/-- The row is a folder star on `folder`. -/
def FavoriteRow.StarsFolder (r : FavoriteRow) (driveId folder : Text) : Prop :=
  r.driveId = driveId ∧ r.path = folder ∧ r.kind = .directory

instance (r : FavoriteRow) (driveId folder : Text) : Decidable (r.StarsFolder driveId folder) :=
  inferInstanceAs (Decidable (_ ∧ _))

/-- The row is a star on the file at `path`. -/
def FavoriteRow.StarsFile (r : FavoriteRow) (driveId path : Text) : Prop :=
  r.driveId = driveId ∧ r.path = path ∧ r.kind = .file

instance (r : FavoriteRow) (driveId path : Text) : Decidable (r.StarsFile driveId path) :=
  inferInstanceAs (Decidable (_ ∧ _))

/-- Drop folder stars above `path` whose folder no longer exists. -/
def dropVanishedFolders (driveId path : Text) (s : State) : State :=
  let ancestors := ancestorFolders path
  let starred := ((s.favorites.filter (fun r =>
    r.driveId = driveId ∧ r.kind = .directory ∧ r.path ∈ ancestors)).map (·.path)).dedup
  starred.foldl (fun s folder =>
    if s.contents.resolvePathKind driveId folder = some .directory then s
    else { s with favorites := s.favorites.filter (fun r => ¬ r.StarsFolder driveId folder) }) s

/-- The file at `path` is gone for every user. -/
def favoritesAfterRemove (driveId path : Text) (s : State) : State :=
  dropVanishedFolders driveId path
    { s with favorites := s.favorites.filter (fun r => ¬ r.StarsFile driveId path) }

/-- Every user's star on the file at `source` moves to `target`, unless the user has a star
there. -/
def favoritesAfterMove (driveId source target : Text) (s : State) : State :=
  let kept := s.favorites.filter (fun r => ¬ (r.StarsFile driveId source ∧
    ∃ t ∈ s.favorites, t.userId = r.userId ∧ t.driveId = driveId ∧ t.path = target))
  dropVanishedFolders driveId source
    { s with favorites := kept.map (fun r =>
        if r.StarsFile driveId source then { r with path := target } else r) }

/-! ### The operations on files -/

/-- What `createVersion` leaves of the life of a file. -/
def setLife (driveId path : Text) (isDeleted : Bool) (files : List FileLife) : List FileLife :=
  if ∃ f ∈ files, f.driveId = driveId ∧ f.path = path then
    files.map (fun f =>
      if f.driveId = driveId ∧ f.path = path then { f with isDeleted := isDeleted } else f)
  else files ++ [⟨driveId, path, isDeleted⟩]

/-- Store an object and record its version. -/
def Contents.store (driveId path : Text) (c : Contents) : Contents :=
  { c with
    objects :=
      if (driveId, path) ∈ c.objects then c.objects else c.objects ++ [(driveId, path)]
    files := setLife driveId path false c.files }

/-- Delete an object and record that. -/
def Contents.delete (driveId path : Text) (c : Contents) : Contents :=
  { c with
    objects := c.objects.filter (· ≠ (driveId, path))
    deleted := c.deleted ++ [(driveId, path)]
    files := setLife driveId path true c.files }

section

variable (ctx : OpContext)

def write (path : Text) (s : State) : State :=
  { s with contents := s.contents.store ctx.driveId (normalizePath path) }

def rm (path : Text) (s : State) : State :=
  let path := normalizePath path
  favoritesAfterRemove ctx.driveId path
    { s with contents := s.contents.delete ctx.driveId path }

def mv (source target : Text) (s : State) : Except OpError State :=
  let source := normalizePath source
  let target := normalizePath target
  if source = target then
    .error (.validation { message := "Source and destination are the same path" })
  else if (ctx.driveId, source) ∉ s.contents.objects then
    .error (.noSuchKey (getS3Key ctx.orgId ctx.driveId source))
  else
    .ok (favoritesAfterMove ctx.driveId source target
      { s with contents := (s.contents.store ctx.driveId target).delete ctx.driveId source })

end

/-! ### Runs -/

/-- A request; the star of an add is made at `now`. -/
inductive Request where
  | favoriteAdd (path : Text) (now : Nat)
  | favoriteRemove (path : Text)
  | write (path : Text)
  | rm (path : Text)
  | mv (source target : Text)
  deriving DecidableEq, Repr

def perform (ctx : OpContext) (request : Request) (s : State) : Except OpError (Reply × State) :=
  match request with
  | .favoriteAdd path now => favoriteAdd ctx path now s
  | .favoriteRemove path => .ok (favoriteRemove ctx path s)
  | .write path => .ok (.done, write ctx path s)
  | .rm path => .ok (.done, rm ctx path s)
  | .mv source target => (mv ctx source target s).map (fun s' => (.done, s'))

/-- A request that is refused changes nothing. -/
def State.step (s : State) (call : OpContext × Request) : State :=
  match perform call.1 call.2 s with
  | .ok (_, s') => s'
  | .error _ => s

def State.run (s : State) (calls : List (OpContext × Request)) : State :=
  calls.foldl State.step s

end AgentFs.Favorites

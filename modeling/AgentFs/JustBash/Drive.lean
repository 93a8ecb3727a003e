import Mathlib.Data.List.Dedup
import AgentFs.Lib.OrderedMap
import AgentFs.Paths

/-!
# The drive behind a just-bash file system

The paths of `just-bash/src/index.ts`, and what the requests that it makes do to the files of a
drive, with no other client.  A path of the drive may be a file and a folder at once.
-/

namespace AgentFs.JustBash

/-! ### Paths -/

/-- A normalized path as the list of its names; the root has none. -/
abbrev Route := List Text

/-- What `normalizePath` does with one part of a path. -/
def walk (route : Route) (part : Text) : Route :=
  if part = [] ∨ part = ['.'] then route
  else if part = ['.', '.'] then route.dropLast
  else route ++ [part]

def normalizePath (path : Text) : Route :=
  (path.splitOn '/').foldl walk []

/-- `normalizePath` of the parent, a slash and the child. -/
def joinPath (parent : Route) (child : Text) : Route :=
  (child.splitOn '/').foldl walk parent

def dirname (route : Route) : Route :=
  route.dropLast

/-- A name that is no part with a meaning of its own. -/
structure PlainName (name : Text) : Prop where
  nonempty : name ≠ []
  dot : name ≠ ['.']
  dots : name ≠ ['.', '.']
  slash : '/' ∉ name

theorem joinPath_eq {name : Text} (h : PlainName name) (parent : Route) :
  joinPath parent name = parent ++ [name]
  := by
  unfold joinPath
  have hsplit : name.splitOn '/' = [name] := by
    apply List.splitOnP_eq_singleton
    intro c hc
    rw [beq_eq_false_iff_ne]
    rintro rfl
    exact h.slash hc
  rw [hsplit, List.foldl_cons, List.foldl_nil]
  unfold walk
  rw [if_neg (not_or.mpr ⟨h.nonempty, h.dot⟩), if_neg h.dots]

/-- What is left of a path below another one. -/
def below : Route → Route → Option Route
  | [], route => some route
  | _ :: _, [] => none
  | x :: path, y :: route => if x = y then below path route else none

theorem below_eq_some {path route rest : Route} :
  below path route = some rest ↔ route = path ++ rest
  := by
  induction path generalizing route with
  | nil =>
      unfold below
      rw [Option.some.injEq, List.nil_append]
  | cons x path ih =>
      cases route with
      | nil => simp [below]
      | cons y route =>
          unfold below
          by_cases hxy : x = y
          · rw [if_pos hxy, ih, hxy]
            simp
          · rw [if_neg hxy]
            simp [Ne.symm hxy]

/-! ### Listing -/

/-- The type of an entry. -/
inductive EntryType where
  | file
  | directory
  deriving DecidableEq, Repr

/-- `AgentFsLsEntry`. -/
structure LsEntry where
  name : Text
  type : EntryType
  size : Nat
  modifiedAt : Option Nat
  deriving DecidableEq, Repr

/-- The files of a drive. -/
abbrev Drive := OrderedMap Route Bytes

/-- The folder that a file shows in a listing. -/
def folderEntry (path : Route) (e : Route × Bytes) : Option LsEntry :=
  match below path e.1 with
  | some (name :: _ :: _) => if name = [] then none else some ⟨name, .directory, 0, none⟩
  | _ => none

/-- A file as an entry of the listing of its folder. -/
def fileEntry (path : Route) (e : Route × Bytes) : Option LsEntry :=
  match below path e.1 with
  | some [name] => if name = [] then none else some ⟨name, .file, e.2.length, none⟩
  | _ => none

/-- The operation `ls`: folders, which are names before a slash, and files; `arrange` is the
order in which the store lists them. -/
def ls (arrange : List LsEntry → List LsEntry) (path : Route) (drive : Drive) : List LsEntry :=
  arrange ((drive.entries.filterMap (folderEntry path)).dedup ++
    drive.entries.filterMap (fileEntry path))

theorem isSome_get_iff {drive : Drive} {route : Route} :
  (drive.get route).isSome ↔ ∃ bytes, (route, bytes) ∈ drive.entries
  := by
  rw [Option.isSome_iff_exists]
  simp only [OrderedMap.get_eq_some_iff]

theorem folderEntry_eq_some {path : Route} {e : Route × Bytes} {entry : LsEntry} :
  folderEntry path e = some entry ↔ ∃ name next rest, name ≠ [] ∧
    e.1 = path ++ name :: next :: rest ∧ entry = ⟨name, .directory, 0, none⟩
  := by
  unfold folderEntry
  split
  · rename_i name next rest hbelow
    rw [below_eq_some] at hbelow
    constructor
    · intro h
      split_ifs at h with hname
      exact ⟨name, next, rest, hname, hbelow, (Option.some.inj h).symm⟩
    · rintro ⟨name', next', rest', hname, hroute, rfl⟩
      rw [hbelow] at hroute
      obtain ⟨rfl, -, -⟩ : name = name' ∧ next = next' ∧ rest = rest' := by
        simpa using hroute
      rw [if_neg hname]
  · rename_i hne
    constructor
    · rintro ⟨⟩
    · rintro ⟨name, next, rest, -, hroute, -⟩
      exact absurd (below_eq_some.mpr hroute) (hne name next rest)

theorem fileEntry_eq_some {path : Route} {e : Route × Bytes} {entry : LsEntry} :
  fileEntry path e = some entry ↔ ∃ name, name ≠ [] ∧ e.1 = path ++ [name] ∧
    entry = ⟨name, .file, e.2.length, none⟩
  := by
  unfold fileEntry
  split
  · rename_i name hbelow
    rw [below_eq_some] at hbelow
    constructor
    · intro h
      split_ifs at h with hname
      exact ⟨name, hname, hbelow, (Option.some.inj h).symm⟩
    · rintro ⟨name', hname, hroute, rfl⟩
      rw [hbelow] at hroute
      obtain rfl : name = name' := by simpa using hroute
      rw [if_neg hname]
  · rename_i hne
    constructor
    · rintro ⟨⟩
    · rintro ⟨name, -, hroute, -⟩
      exact absurd (below_eq_some.mpr hroute) (hne name)

section

variable {arrange : List LsEntry → List LsEntry} (harrange : ∀ entries, (arrange entries).Perm entries)

include harrange

theorem mem_ls {path : Route} {drive : Drive} {entry : LsEntry} :
  entry ∈ ls arrange path drive ↔
    (∃ e ∈ drive.entries, folderEntry path e = some entry) ∨
      ∃ e ∈ drive.entries, fileEntry path e = some entry
  := by
  unfold ls
  rw [(harrange _).mem_iff, List.mem_append, List.mem_dedup, List.mem_filterMap,
    List.mem_filterMap]

/-- An entry of a listing is of a file, or of a folder with a file below. -/
theorem of_mem_ls {path : Route} {drive : Drive} {entry : LsEntry}
    (h : entry ∈ ls arrange path drive) :
  entry.name ≠ [] ∧
    (entry.type = .file ∧ (drive.get (path ++ [entry.name])).isSome ∨
      entry.type = .directory ∧
        ∃ next rest, (drive.get (path ++ entry.name :: next :: rest)).isSome)
  := by
  rcases (mem_ls harrange).mp h with ⟨⟨route, bytes⟩, he, hentry⟩ | ⟨⟨route, bytes⟩, he, hentry⟩
  · obtain ⟨name, next, rest, hname, rfl, rfl⟩ := folderEntry_eq_some.mp hentry
    exact ⟨hname, .inr ⟨rfl, next, rest, isSome_get_iff.mpr ⟨bytes, he⟩⟩⟩
  · obtain ⟨name, hname, rfl, rfl⟩ := fileEntry_eq_some.mp hentry
    exact ⟨hname, .inl ⟨rfl, isSome_get_iff.mpr ⟨bytes, he⟩⟩⟩

theorem file_mem_ls {path : Route} {drive : Drive} {name : Text} (hname : name ≠ [])
    (h : (drive.get (path ++ [name])).isSome) :
  ∃ entry ∈ ls arrange path drive, entry.name = name ∧ entry.type = .file
  := by
  obtain ⟨bytes, he⟩ := isSome_get_iff.mp h
  exact ⟨_, (mem_ls harrange).mpr (.inr ⟨_, he, fileEntry_eq_some.mpr ⟨name, hname, rfl, rfl⟩⟩),
    rfl, rfl⟩

theorem folder_mem_ls {path : Route} {drive : Drive} {name next : Text} {rest : Route}
    (hname : name ≠ []) (h : (drive.get (path ++ name :: next :: rest)).isSome) :
  ∃ entry ∈ ls arrange path drive, entry.name = name ∧ entry.type = .directory
  := by
  obtain ⟨bytes, he⟩ := isSome_get_iff.mp h
  exact ⟨_, (mem_ls harrange).mpr
    (.inl ⟨_, he, folderEntry_eq_some.mpr ⟨name, next, rest, hname, rfl, rfl⟩⟩), rfl, rfl⟩

end

/-! ### Writing -/

/-- A change of the files. -/
inductive Effect where
  | put (route : Route) (bytes : Bytes)
  | remove (route : Route)
  deriving DecidableEq, Repr

def Effect.apply (drive : Drive) : Effect → Drive
  | .put route bytes => drive.set route bytes
  | .remove route => drive.delete route

/-- A request that changes the drive. -/
inductive DriveOp where
  | put (route : Route) (bytes : Bytes)
  | rm (route : Route)
  | cp (src dest : Route)
  | mv (src dest : Route)
  deriving DecidableEq, Repr

/-- What an operation does to the files, in order; none where it is refused. -/
def DriveOp.effects (drive : Drive) : DriveOp → Option (List Effect)
  | .put route bytes => some [.put route bytes]
  | .rm route => some [.remove route]
  | .cp src dest =>
      if src = dest then none else (drive.get src).map (fun bytes => [.put dest bytes])
  | .mv src dest =>
      if src = dest then none
      else (drive.get src).map (fun bytes => [.put dest bytes, .remove src])

/-- The paths that `mutate` and `putRaw` invalidate after the operation. -/
def DriveOp.touched : DriveOp → List Route
  | .put route _ => [route]
  | .rm route => [route]
  | .cp _ dest => [dest]
  | .mv src dest => [src, dest]

end AgentFs.JustBash

import AgentFs.Lib.Fueled
import AgentFs.JustBash.Drive

/-!
# The operations of a just-bash file system

`mkdir`, `rm`, `cp` and `mv` of `AgentFsFileSystem`, with nothing else at work on the drive.  The
answers to `stat` and `ls` are those of the drive.  `fate` says what becomes of each request,
`arrange` is the order in which the store lists entries, and `marker` is
`directoryMarkerName`.  The recursion is on fuel.
-/

namespace AgentFs.JustBash

/-- What becomes of a request; one that fails may have had a part of its effects. -/
inductive Fate where
  | ok
  | failed (done : Nat)
  deriving DecidableEq, Repr

/-- An error of an operation. -/
inductive ShellError where
  /-- `new Error` with a code, the operation and the path. -/
  | path (code operation : String) (route : Route)
  /-- A request failed. -/
  | request
  deriving DecidableEq, Repr

/-- The drive, and what the file system remembers; `requests` counts the requests. -/
structure Shell where
  drive : Drive
  knownDirectories : List Route
  requests : Nat
  deriving DecidableEq

abbrev Sh (α : Type) := Fueled Shell ShellError α

def enoent (operation : String) (route : Route) : ShellError := .path "ENOENT" operation route

def enotdir (operation : String) (route : Route) : ShellError := .path "ENOTDIR" operation route

/-! ### What is remembered -/

/-- The directories that `rememberAncestors` adds. -/
def ancestors (route : Route) : List Route :=
  (dirname route).inits

def remember (routes : List Route) : Sh Unit :=
  Fueled.change (fun s => { s with knownDirectories := routes ++ s.knownDirectories })

def rememberFile (route : Route) : Sh Unit :=
  remember (ancestors route)

def rememberDirectory (route : Route) : Sh Unit :=
  remember (route :: ancestors route)

def forgetDirectory (route : Route) : Sh Unit :=
  Fueled.change (fun s =>
    { s with knownDirectories := s.knownDirectories.filter (fun d => d = [] ∨ ¬ route <+: d) })

/-! ### Requests -/

section

variable (fate : Nat → Fate) (arrange : List LsEntry → List LsEntry) (marker : Text)

/-- A request that reads the drive. -/
def ask {α : Type} (f : Drive → α) : Sh α := fun s =>
  let s' := { s with requests := s.requests + 1 }
  match fate s.requests with
  | .ok => some (.ok (f s.drive), s')
  | .failed _ => some (.error .request, s')

/-- A request that changes the drive. -/
def mutate (op : DriveOp) : Sh Unit := fun s =>
  let s' := { s with requests := s.requests + 1 }
  match op.effects s.drive with
  | none => some (.error .request, s')
  | some effects =>
      match fate s.requests with
      | .ok => some (.ok (), { s' with drive := effects.foldl Effect.apply s.drive })
      | .failed done =>
          some (.error .request,
            { s' with drive := (effects.take done).foldl Effect.apply s.drive })

def fileExists (route : Route) : Sh Bool := do
  let found ← ask fate (fun drive => (drive.get route).isSome)
  if found then
    rememberFile route
    pure true
  else pure false

/-- The entries of a directory, with its markers or without. -/
def listDirectory (route : Route) (includeMarkers : Bool) : Sh (List LsEntry) := do
  let all ← ask fate (ls arrange route)
  remember (all.flatMap (fun entry =>
    let child := joinPath route entry.name
    if entry.type = .directory then child :: ancestors child else ancestors child))
  pure (if includeMarkers then all else all.filter (fun entry => entry.name ≠ marker))

def directoryExists (route : Route) : Sh Bool :=
  if route = [] then pure true
  else do
    let entries ← listDirectory fate arrange marker route true
    if entries ≠ [] then
      rememberDirectory route
      pure true
    else Fueled.read (fun s => route ∈ s.knownDirectories)

/-- `stat`, as far as `exists` needs it. -/
def stat (route : Route) : Sh Bool := do
  if ← fileExists fate route then pure true
  else if ← directoryExists fate arrange marker route then
    rememberDirectory route
    pure true
  else Fueled.throw (enoent "stat" route)

/-- `exists`, which takes any error of `stat` for an answer. -/
def pathExists (route : Route) : Sh Bool :=
  if route = [] then pure true else (stat fate arrange marker route).orElse false

/-! ### Operations -/

def validatePath (operation : String) (route : Route) : Sh Unit :=
  if ∃ name ∈ route, '\x00' ∈ name then Fueled.throw (enoent operation route) else pure ()

def assertParentWritable (operation : String) (route : Route) : Sh Unit :=
  if dirname route = [] then pure ()
  else do
    if ← fileExists fate (dirname route) then Fueled.throw (enotdir operation route)
    else pure ()

/-- `assertParentDirectory` of `mkdir`. -/
def assertParentDirectory (operation : String) (route : Route) (recursive : Bool) : Sh Unit :=
  if dirname route = [] then pure ()
  else do
    if ← fileExists fate (dirname route) then Fueled.throw (enotdir operation route)
    else if recursive then pure ()
    else if ← directoryExists fate arrange marker (dirname route) then pure ()
    else Fueled.throw (enoent operation route)

def markerPath (route : Route) : Route :=
  joinPath route marker

def mkdir (route : Route) (recursive : Bool) : Sh Unit := do
  validatePath "mkdir" route
  if route = [] then pure ()
  else if ← pathExists fate arrange marker route then
    if recursive then pure () else Fueled.throw (.path "EEXIST" "mkdir" route)
  else
    assertParentDirectory fate arrange marker "mkdir" route recursive
    mutate fate (.put (markerPath marker route) [])
    rememberDirectory route
    rememberFile (markerPath marker route)

/-- The files under a directory, markers included. -/
def collectFilePaths : Nat → Route → Sh (List Route)
  | 0, _ => Fueled.exhausted
  | fuel + 1, route => do
      let entries ← listDirectory fate arrange marker route true
      Fueled.collect (fun entry =>
        let child := joinPath route entry.name
        if entry.type = .directory then collectFilePaths fuel child else pure [child]) entries

def rm (fuel : Nat) (route : Route) (recursive force : Bool) : Sh Unit := do
  validatePath "rm" route
  if route = [] then Fueled.throw (.path "EBUSY" "rm" route)
  else if ← fileExists fate route then mutate fate (.rm route)
  else
    let entries ← listDirectory fate arrange marker route true
    let known ← Fueled.read (fun s => decide (route ∈ s.knownDirectories))
    if entries = [] ∧ known = false then
      if force then pure () else Fueled.throw (enoent "rm" route)
    else if (∃ entry ∈ entries, entry.name ≠ marker) ∧ recursive = false then
      Fueled.throw (.path "ENOTEMPTY" "rm" route)
    else
      let files ← collectFilePaths fate arrange marker fuel route
      Fueled.forEach (fun file => mutate fate (.rm file)) files
      forgetDirectory route

def cp : Nat → Route → Route → Bool → Sh Unit
  | 0, _, _, _ => Fueled.exhausted
  | fuel + 1, src, dest, recursive => do
      validatePath "cp" src
      validatePath "cp" dest
      assertParentWritable fate "cp" dest
      if ← fileExists fate src then
        mutate fate (.cp src dest)
        rememberFile dest
      else if !(← directoryExists fate arrange marker src) then
        Fueled.throw (enoent "cp" src)
      else if !recursive then Fueled.throw (.path "EISDIR" "cp" src)
      else
        mkdir fate arrange marker dest true
        let entries ← listDirectory fate arrange marker src false
        Fueled.forEach (fun entry =>
          cp fuel (joinPath src entry.name) (joinPath dest entry.name)
            (entry.type = .directory)) entries

/-- `cp` as it is called, on paths that are not normalized. -/
def cpPath (fuel : Nat) (src dest : Text) (recursive : Bool) : Sh Unit :=
  if '\x00' ∈ src then Fueled.throw (enoent "cp" (normalizePath src))
  else if '\x00' ∈ dest then Fueled.throw (enoent "cp" (normalizePath dest))
  else cp fate arrange marker fuel (normalizePath src) (normalizePath dest) recursive

def mv (fuel : Nat) (src dest : Route) : Sh Unit := do
  validatePath "rename" src
  validatePath "rename" dest
  assertParentWritable fate "rename" dest
  if ← fileExists fate src then
    mutate fate (.mv src dest)
    rememberFile dest
  else if !(← directoryExists fate arrange marker src) then
    Fueled.throw (enoent "rename" src)
  else
    cp fate arrange marker fuel src dest true
    rm fate arrange marker fuel src true false

/-- `mv` as it is called. -/
def mvPath (fuel : Nat) (src dest : Text) : Sh Unit :=
  if '\x00' ∈ src then Fueled.throw (enoent "rename" (normalizePath src))
  else if '\x00' ∈ dest then Fueled.throw (enoent "rename" (normalizePath dest))
  else mv fate arrange marker fuel (normalizePath src) (normalizePath dest)

end

end AgentFs.JustBash

import AgentFs.Fuse.Inodes
import AgentFs.Fuse.WorkingCopy

/-!
# Truncation in the mount

`setattr` of `fs.rs` cuts the working copy of the handle that is passed, and answers the size that
was asked for.  The drive behind the daemon is only asked for attributes.
-/

namespace AgentFs

open Async

/-- The state of the mount that `setattr` works on, and the drive. -/
structure Mount where
  inodes : OrderedMap Nat FsNode
  openFiles : OrderedMap Nat OpenFile
  world : World

/-- What `make_file_attr` answers of an inode, without the owner. -/
structure FileAttr where
  ino : Nat
  kind : NodeKind
  size : Nat
  mtime : Int
  perm : Nat
  deriving DecidableEq, Repr

/-- The permission bits of a kind of node. -/
def NodeKind.mode : NodeKind → Nat
  | .dir => 0o755
  | .file => 0o644
  | .symlink => 0o777

namespace Mount

/-- `stat_inode`; the daemon answers `GetAttr`. -/
def statInode (m : Mount) (ino : Nat) (answer : DaemonAnswer) : Except Errno FileAttr :=
  match m.inodes.get ino with
  | none => .error .enoent
  | some node =>
      if ino = rootInode ∨ node.path = ['/'] then .ok ⟨ino, .dir, 0, 0, NodeKind.dir.mode⟩
      else if node.kind = .symlink then .ok ⟨ino, .symlink, 0, 0, NodeKind.symlink.mode⟩
      else
        match answer with
        | .attr attr => .ok ⟨ino, attr.kind, attr.size, attr.mtimeUnix, attr.kind.mode⟩
        | _ => .error answer.errno

/-- `truncate_local`; `ok` says whether `set_len` succeeds. -/
def truncateLocal (m : Mount) (fh size : Nat) (ok : Bool) : Except Errno Unit × Mount :=
  match m.openFiles.get fh with
  | none => (.error .ebadf, m)
  | some of =>
      (if ok then .ok () else .error .eio,
        { m with openFiles := m.openFiles.set fh (of.call (.truncate size ok)) })

/-- `setattr`: only with a size and a handle is something truncated. -/
def setattr (m : Mount) (ino : Nat) (size fh : Option Nat) (ok : Bool) (answer : DaemonAnswer) :
    Except Errno FileAttr × Mount :=
  let truncated := match size, fh with
    | some newSize, some fh => m.truncateLocal fh newSize ok
    | _, _ => (.ok (), m)
  match truncated.1 with
  | .error e => (.error e, truncated.2)
  | .ok () =>
      ((truncated.2.statInode ino answer).map (fun attr =>
        { attr with size := size.getD attr.size }), truncated.2)

end Mount

/-! ### What a truncation has to do -/

/-- A file of the given size that keeps the bytes it can of the old one. -/
structure CutTo (size : Nat) (old new : Bytes) : Prop where
  length : new.length = size
  keeps : new.take (min size old.length) = old.take (min size old.length)

theorem cutTo_setLen (size : Nat) (file : Bytes) :
  CutTo size file (setLen file size)
  := by
  unfold setLen
  constructor
  · rw [List.length_take, List.length_append, List.length_replicate]
    omega
  · rw [List.take_take, List.take_append_of_le_length (by omega)]
    congr 1
    omega

theorem cutTo_self {size : Nat} {file : Bytes} :
  CutTo size file file ↔ file.length = size
  :=
  ⟨CutTo.length, fun h => ⟨h, rfl⟩⟩

/-- The open `handles` of an inode are released with the file cut: each of them when the call was
made through a handle, else those that have something to publish, and the remote file is cut. -/
structure Truncated (ctx : OpContext) (before after : Mount) (ino : Nat) (handles : List Nat)
    (size : Nat) (fh : Option Nat) : Prop where
  copies : ∀ h ∈ handles, ∀ of, before.openFiles.get h = some of →
    fh.isSome = true ∨ of.dirty = true →
      ∃ of', after.openFiles.get h = some of' ∧ CutTo size of.file of'.file
  remote : fh = none → ∀ node, before.inodes.get ino = some node →
    ∀ bytes, before.world.remote ctx node.path = some bytes →
      ∃ bytes', after.world.remote ctx node.path = some bytes' ∧ CutTo size bytes bytes'

/-- What the call leaves as it is has the size already. -/
structure HasSize (ctx : OpContext) (m : Mount) (ino : Nat) (handles : List Nat) (size : Nat)
    (fh : Option Nat) : Prop where
  copies : ∀ h ∈ handles, fh ≠ some h → ∀ of, m.openFiles.get h = some of →
    fh.isSome = true ∨ of.dirty = true → of.file.length = size
  remote : fh = none → ∀ node, m.inodes.get ino = some node →
    ∀ bytes, m.world.remote ctx node.path = some bytes → bytes.length = size

/-! ### What the call does -/

namespace Mount

variable {m m' : Mount} {ino size : Nat} {fh : Option Nat} {ok : Bool} {answer : DaemonAnswer}
  {attr : FileAttr}

/-- A truncation of a handle that succeeds cuts its working copy, and no other. -/
theorem truncateLocal_ok {h : Nat} (hrun : m.truncateLocal h size ok = (.ok (), m')) :
  ∃ of, m.openFiles.get h = some of ∧
    m' = { m with openFiles :=
      m.openFiles.set h { of with dirty := true, file := setLen of.file size } }
  := by
  unfold truncateLocal at hrun
  cases hget : m.openFiles.get h with
  | none =>
      rw [hget] at hrun
      cases hrun
  | some of =>
      rw [hget] at hrun
      cases ok with
      | false => cases hrun
      | true =>
          cases hrun
          exact ⟨of, rfl, rfl⟩

/-- A call that succeeds answers the size that was asked for; it has truncated the handle it was
given, or done nothing. -/
theorem setattr_ok (hrun : m.setattr ino (some size) fh ok answer = (.ok attr, m')) :
  attr.size = size ∧ (∀ h, fh = some h → m.truncateLocal h size ok = (.ok (), m')) ∧
    (fh = none → m' = m)
  := by
  unfold setattr at hrun
  dsimp only at hrun
  split at hrun
  · cases hrun
  · rename_i hok
    obtain ⟨hattr, hmount⟩ := Prod.mk.inj hrun
    constructor
    · cases hstat : (Mount.statInode _ ino answer) with
      | error e =>
          rw [hstat] at hattr
          cases hattr
      | ok stat =>
          rw [hstat] at hattr
          cases hattr
          rfl
    · constructor
      · rintro h rfl
        exact Prod.ext hok hmount
      · rintro rfl
        exact hmount.symm

end Mount

/-- When the handle has something to publish and nobody else has written, a release of it that
succeeds leaves the remote file with the bytes. -/
def Mount.ReleaseLeaves (sha256 : Bytes → Text) (ctx : OpContext) (m : Mount) (h : Nat)
    (bytes : Bytes) : Prop :=
  ∀ of, m.openFiles.get h = some of → normalizePath of.path = of.path →
    (of.baseVersion.isSome = true → of.baseHash = m.world.headHash ctx of.path) →
    sha256 of.file ≠ of.baseHash →
    ∀ limit cs answer w' ds, (releaseClose sha256 limit ctx of).run.solo m.world cs =
        some (.ok answer, w', ds) →
      w'.remote ctx of.path = some bytes

theorem Mount.releaseLeaves_truncateLocal {sha256 : Bytes → Text} {ctx : OpContext} {m m' : Mount}
    {h size : Nat} {ok : Bool} (hrun : m.truncateLocal h size ok = (.ok (), m')) :
  ∃ old, m.openFiles.get h = some old ∧ m'.ReleaseLeaves sha256 ctx h (setLen old.file size)
  := by
  obtain ⟨old, hold, rfl⟩ := Mount.truncateLocal_ok hrun
  refine ⟨old, hold, ?_⟩
  intro of hget hpath hhead hhash limit cs answer w' ds hrelease
  rw [OrderedMap.get_set, if_pos rfl] at hget
  cases hget
  have hsolo := releaseClose_solo hpath hhead hrelease
  rwa [if_pos ⟨rfl, hhash⟩] at hsolo

/-- The file `/f` with the bytes `ab`, open with one clean handle. -/
def sampleMount : Mount where
  inodes := OrderedMap.empty.set 2 { inode := 2, kind := .file, drive := ['d'], path := ['/', 'f'] }
  openFiles := OrderedMap.empty.set 1 ⟨['/', 'f'], some 1, ['h'], false, [97, 98]⟩
  world := World.empty.store! (locate sampleContext.backend (sampleContext.key ['/', 'f']))
    (some ⟨[97, 98], none⟩)

end AgentFs

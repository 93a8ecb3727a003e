import AgentFs.Fuse.Mount
import AgentFs.Lib.OrderedMap

/-!
# The inode table of the mount

The maps `inodes` and `path_to_inode` of `fs.rs`, and the paths of the open handles.  The
kernel's calls change them by `insert_inode` only; what the daemon answers to a call is an input
of the call.
-/

namespace AgentFs

/-- `NodeKind`. -/
inductive NodeKind where
  | file
  | dir
  | symlink
  deriving DecidableEq, Repr

/-- `FsNode`. -/
structure FsNode where
  inode : Nat
  kind : NodeKind
  drive : Text
  path : Text
  headVersion : Option Nat := none
  contentHash : Option Text := none
  size : Nat := 0
  mtimeUnix : Int := 0
  deriving DecidableEq, Repr

/-- The key of a node in `path_to_inode`. -/
def FsNode.key (node : FsNode) : Text × Text :=
  (node.drive, node.path)

def rootInode : Nat := 1

def firstDynInode : Nat := 2

/-- `FsNode::root`. -/
def FsNode.root : FsNode where
  inode := rootInode
  kind := .dir
  drive := []
  path := ['/']

/-- `DriveInfo`. -/
structure DriveInfo where
  slug : Text
  id : Text
  orgId : Text
  deriving DecidableEq, Repr

/-- `AttrInfo`. -/
structure AttrInfo where
  kind : NodeKind
  size : Nat
  mtimeUnix : Int
  version : Option Nat
  contentHash : Option Text
  deriving DecidableEq, Repr

/-- The error numbers that the helper makes up; `daemon` is what `errno::map` makes of an error of
the daemon. -/
inductive Errno where
  | enoent
  | erofs
  | exdev
  | eio
  | eisdir
  | ebadf
  | daemon (code : Int)
  deriving DecidableEq, Repr

/-- What the daemon answers, as far as the calls tell the answers apart. -/
inductive DaemonAnswer where
  | ok
  | drives (drives : List DriveInfo)
  | attr (attr : AttrInfo)
  | openRead
  | error (code : Int)
  /-- Another response, or none. -/
  | other
  deriving DecidableEq, Repr

/-- The error of a call that was not answered as it expects. -/
def DaemonAnswer.errno : DaemonAnswer → Errno
  | .error code => .daemon code
  | _ => .eio

/-- The handles are listed by their drive and path. -/
structure InodeTable where
  inodes : OrderedMap Nat FsNode
  pathToInode : OrderedMap (Text × Text) Nat
  nextInode : Nat
  openFiles : OrderedMap Nat (Text × Text)
  nextFh : Nat
  deriving DecidableEq

namespace InodeTable

/-- `AgentFsFs::new`. -/
def new : InodeTable where
  inodes := OrderedMap.empty.set rootInode .root
  pathToInode := OrderedMap.empty
  nextInode := firstDynInode
  openFiles := OrderedMap.empty
  nextFh := 1

def getInode (t : InodeTable) (ino : Nat) : Option FsNode :=
  t.inodes.get ino

def insertInode (t : InodeTable) (node : FsNode) : Nat × InodeTable :=
  match t.pathToInode.get node.key with
  | some existing =>
      (existing, { t with inodes := t.inodes.set existing { node with inode := existing } })
  | none =>
      let ino := if node.inode = 0 then t.nextInode else node.inode
      (ino, { t with
        inodes := t.inodes.set ino { node with inode := ino }
        pathToInode := t.pathToInode.set node.key ino
        nextInode := if node.inode = 0 then t.nextInode + 1 else t.nextInode })

/-- Insert a node and answer it with its number. -/
def mint (t : InodeTable) (node : FsNode) : Except Errno FsNode × InodeTable :=
  let (ino, t') := t.insertInode node
  (.ok { node with inode := ino }, t')

/-- `insert` of a handle into `open_files`. -/
def openHandle (t : InodeTable) (drive path : Text) : Nat × InodeTable :=
  (t.nextFh, { t with openFiles := t.openFiles.set t.nextFh (drive, path), nextFh := t.nextFh + 1 })

def resolveChild (t : InodeTable) (parentIno : Nat) (name : Text) (answer : DaemonAnswer) :
    Except Errno FsNode × InodeTable :=
  match t.getInode parentIno with
  | none => (.error .enoent, t)
  | some parent =>
      if parentIno = rootInode then
        if name = "current".toList then
          t.mint { inode := 0, kind := .symlink, drive := [], path := "/current".toList }
        else match answer with
          | .drives drives =>
              match drives.find? (fun d => d.slug = name) with
              | some d => t.mint { inode := 0, kind := .dir, drive := d.slug, path := ['/'] }
              | none => (.error .enoent, t)
          | _ => (.error answer.errno, t)
      else match answer with
        | .attr attr =>
            t.mint
              { inode := 0
                kind := attr.kind
                drive := parent.drive
                path := joinPath parent.path name
                headVersion := attr.version
                contentHash := attr.contentHash
                size := attr.size
                mtimeUnix := attr.mtimeUnix }
        | _ => (.error answer.errno, t)

/-- The `create` callback; `ok` says whether the working copy could be made. -/
def create (t : InodeTable) (parentIno : Nat) (name : Text) (now : Int) (ok : Bool) :
    Except Errno (FsNode × Nat) × InodeTable :=
  match t.getInode parentIno with
  | none => (.error .enoent, t)
  | some parent =>
      if parentIno = rootInode then (.error .erofs, t)
      else if ok = false then (.error .eio, { t with nextFh := t.nextFh + 1 })
      else
        let path := joinPath parent.path name
        let (fh, t₁) := t.openHandle parent.drive path
        let (node, t₂) := t₁.mint
          { inode := 0, kind := .file, drive := parent.drive, path := path, mtimeUnix := now }
        (node.map (·, fh), t₂)

def mkdirPath (t : InodeTable) (parentIno : Nat) (name : Text) (now : Int)
    (answer : DaemonAnswer) : Except Errno FsNode × InodeTable :=
  match t.getInode parentIno with
  | none => (.error .enoent, t)
  | some parent =>
      if parentIno = rootInode then (.error .erofs, t)
      else match answer with
        | .ok => t.mint
            { inode := 0
              kind := .dir
              drive := parent.drive
              path := joinPath parent.path name
              mtimeUnix := now }
        | _ => (.error answer.errno, t)

/-- `unlink_path` and `rmdir_path`, which differ in what they ask of the daemon. -/
def removePath (t : InodeTable) (parentIno : Nat) (answer : DaemonAnswer) : Except Errno Unit :=
  match t.getInode parentIno with
  | none => .error .enoent
  | some _ =>
      if parentIno = rootInode then .error .erofs
      else match answer with
        | .ok => .ok ()
        | _ => .error answer.errno

def unlinkPath (t : InodeTable) (parentIno : Nat) (_name : Text) (answer : DaemonAnswer) :
    Except Errno Unit × InodeTable :=
  (t.removePath parentIno answer, t)

def rmdirPath (t : InodeTable) (parentIno : Nat) (_name : Text) (answer : DaemonAnswer) :
    Except Errno Unit × InodeTable :=
  (t.removePath parentIno answer, t)

/-- The drive, the source and the target of a rename that is sent to the daemon. -/
def renameTarget (t : InodeTable) (parentIno : Nat) (name : Text) (newparentIno : Nat)
    (newname : Text) : Except Errno (Text × Text × Text) :=
  match t.getInode parentIno, t.getInode newparentIno with
  | some parent, some newparent =>
      if parentIno = rootInode ∨ newparentIno = rootInode then .error .erofs
      else if parent.drive ≠ newparent.drive then .error .exdev
      else .ok (parent.drive, joinPath parent.path name, joinPath newparent.path newname)
  | _, _ => .error .enoent

/-- `rename_path`; of the state it changes the cache of directory listings only. -/
def renamePath (t : InodeTable) (parentIno : Nat) (name : Text) (newparentIno : Nat)
    (newname : Text) (answer : DaemonAnswer) : Except Errno Unit × InodeTable :=
  match t.renameTarget parentIno name newparentIno newname with
  | .error e => (.error e, t)
  | .ok _ => match answer with
      | .ok => (.ok (), t)
      | _ => (.error answer.errno, t)

/-- The `open` callback; a handle is for the path that the inode has then. -/
def openInode (t : InodeTable) (ino : Nat) (answer : DaemonAnswer) :
    Except Errno Nat × InodeTable :=
  match t.getInode ino with
  | none => (.error .enoent, t)
  | some node =>
      if node.kind ≠ .file then (.error .eisdir, t)
      else match answer with
        | .openRead =>
            let (fh, t') := t.openHandle node.drive node.path
            (.ok fh, t')
        | _ => (.error answer.errno, t)

/-- The `release` callback, which writes to the path of the handle. -/
def release (t : InodeTable) (fh : Nat) : Except Errno (Text × Text) × InodeTable :=
  match t.openFiles.get fh with
  | none => (.error .ebadf, t)
  | some target => (.ok target, { t with openFiles := t.openFiles.delete fh })

end InodeTable

/-- A call of the kernel, with what the daemon answers. -/
inductive FuseCall where
  | lookup (parentIno : Nat) (name : Text) (answer : DaemonAnswer)
  | create (parentIno : Nat) (name : Text) (now : Int) (ok : Bool)
  | mkdir (parentIno : Nat) (name : Text) (now : Int) (answer : DaemonAnswer)
  | unlink (parentIno : Nat) (name : Text) (answer : DaemonAnswer)
  | rmdir (parentIno : Nat) (name : Text) (answer : DaemonAnswer)
  | rename (parentIno : Nat) (name : Text) (newparentIno : Nat) (newname : Text)
      (answer : DaemonAnswer)
  | open (ino : Nat) (answer : DaemonAnswer)
  | release (fh : Nat)
  deriving DecidableEq, Repr

/-- The table after a call. -/
def InodeTable.step (t : InodeTable) : FuseCall → InodeTable
  | .lookup parentIno name answer => (t.resolveChild parentIno name answer).2
  | .create parentIno name now ok => (t.create parentIno name now ok).2
  | .mkdir parentIno name now answer => (t.mkdirPath parentIno name now answer).2
  | .unlink parentIno name answer => (t.unlinkPath parentIno name answer).2
  | .rmdir parentIno name answer => (t.rmdirPath parentIno name answer).2
  | .rename parentIno name newparentIno newname answer =>
      (t.renamePath parentIno name newparentIno newname answer).2
  | .open ino answer => (t.openInode ino answer).2
  | .release fh => (t.release fh).2

/-- The table after some calls. -/
def InodeTable.run (calls : List FuseCall) : InodeTable :=
  calls.foldl InodeTable.step .new

/-! ### The two maps -/

/-- `path_to_inode` and `inodes` are mutually inverse.  The root of the mount, which is in no
drive, has an inode and no key. -/
structure InodeTable.Inverse (t : InodeTable) : Prop where
  forward : ∀ {key ino}, t.pathToInode.get key = some ino →
    ∃ node, t.inodes.get ino = some node ∧ node.key = key
  backward : ∀ {ino node}, t.inodes.get ino = some node → ino ≠ rootInode →
    t.pathToInode.get node.key = some ino

/-- The invariant: the maps are inverse, and the numbers to come are new. -/
structure InodeTable.Inv (t : InodeTable) : Prop where
  inverse : t.Inverse
  dynamic : ∀ {key ino}, t.pathToInode.get key = some ino → ino ≠ rootInode
  minted : ∀ {ino node}, t.inodes.get ino = some node → ino < t.nextInode
  first : firstDynInode ≤ t.nextInode

theorem InodeTable.inv_new :
  InodeTable.new.Inv
  := by
  have hroot : ∀ {ino node}, InodeTable.new.inodes.get ino = some node → ino = rootInode := by
    intro ino node h
    unfold new at h
    dsimp only at h
    rw [OrderedMap.get_set] at h
    by_contra hne
    rw [if_neg hne] at h
    cases h
  refine ⟨⟨by rintro key ino ⟨⟩, ?_⟩, by rintro key ino ⟨⟩, ?_, Nat.le_refl _⟩
  · intro ino node h hne
    exact absurd (hroot h) hne
  · intro ino node h
    rw [hroot h]
    exact Nat.lt_succ_self _

/-- The invariant is about the maps of inodes. -/
theorem InodeTable.Inv.of_maps {t t' : InodeTable} (h : t.Inv) (hinodes : t'.inodes = t.inodes)
    (hpaths : t'.pathToInode = t.pathToInode) (hnext : t'.nextInode = t.nextInode) :
  t'.Inv
  := by
  obtain ⟨⟨hforward, hbackward⟩, hdynamic, hminted, hfirst⟩ := h
  rw [← hpaths, ← hinodes] at hforward hbackward
  rw [← hpaths] at hdynamic
  rw [← hinodes, ← hnext] at hminted
  rw [← hnext] at hfirst
  exact ⟨⟨hforward, hbackward⟩, hdynamic, hminted, hfirst⟩

theorem InodeTable.Inv.insertInode {t : InodeTable} (h : t.Inv) {node : FsNode}
    (hnode : node.inode = 0) :
  (t.insertInode node).2.Inv
  := by
  unfold InodeTable.insertInode
  split
  · rename_i existing hexisting
    obtain ⟨old, hold, holdkey⟩ := h.inverse.forward hexisting
    have hnot := h.dynamic hexisting
    refine ⟨⟨?_, ?_⟩, h.dynamic, ?_, h.first⟩
    · intro key ino hkey
      dsimp only at hkey ⊢
      rw [OrderedMap.get_set]
      by_cases hino : ino = existing
      · rw [if_pos hino]
        subst hino
        obtain ⟨node', hnode', hkey'⟩ := h.inverse.forward hkey
        rw [hold, Option.some.injEq] at hnode'
        exact ⟨_, rfl, by rw [← hkey', ← hnode', holdkey]; rfl⟩
      · rw [if_neg hino]
        exact h.inverse.forward hkey
    · intro ino node' hino hne
      dsimp only at hino ⊢
      rw [OrderedMap.get_set] at hino
      by_cases heq : ino = existing
      · rw [if_pos heq, Option.some.injEq] at hino
        rw [← hino, heq]
        exact hexisting
      · rw [if_neg heq] at hino
        exact h.inverse.backward hino hne
    · intro ino node' hino
      dsimp only at hino ⊢
      rw [OrderedMap.get_set] at hino
      by_cases heq : ino = existing
      · rw [heq]
        exact h.minted hold
      · rw [if_neg heq] at hino
        exact h.minted hino
  · rename_i hnone
    dsimp only
    rw [if_pos hnode, if_pos hnode]
    have hfresh : ∀ {ino node'}, t.inodes.get ino = some node' → ino ≠ t.nextInode :=
      fun hino => Nat.ne_of_lt (h.minted hino)
    have hroot : t.nextInode ≠ rootInode := by
      have hfirst := h.first
      unfold firstDynInode at hfirst
      unfold rootInode
      omega
    refine ⟨⟨?_, ?_⟩, ?_, ?_, Nat.le_succ_of_le h.first⟩
    · intro key ino hkey
      dsimp only at hkey ⊢
      rw [OrderedMap.get_set] at hkey ⊢
      by_cases heq : key = node.key
      · rw [if_pos heq, Option.some.injEq] at hkey
        rw [if_pos hkey.symm]
        exact ⟨_, rfl, heq.symm⟩
      · rw [if_neg heq] at hkey
        obtain ⟨node', hnode', hkey'⟩ := h.inverse.forward hkey
        rw [if_neg (hfresh hnode')]
        exact ⟨node', hnode', hkey'⟩
    · intro ino node' hino hne
      dsimp only at hino ⊢
      rw [OrderedMap.get_set] at hino ⊢
      by_cases heq : ino = t.nextInode
      · rw [if_pos heq, Option.some.injEq] at hino
        rw [← hino, heq]
        exact if_pos rfl
      · rw [if_neg heq] at hino
        have hback := h.inverse.backward hino hne
        rw [if_neg]
        · exact hback
        · intro hsame
          rw [hsame, hnone] at hback
          cases hback
    · intro key ino hkey
      dsimp only at hkey
      rw [OrderedMap.get_set] at hkey
      by_cases heq : key = node.key
      · rw [if_pos heq, Option.some.injEq] at hkey
        rw [← hkey]
        exact hroot
      · rw [if_neg heq] at hkey
        exact h.dynamic hkey
    · intro ino node' hino
      dsimp only at hino ⊢
      rw [OrderedMap.get_set] at hino
      by_cases heq : ino = t.nextInode
      · rw [heq]
        exact Nat.lt_succ_self _
      · rw [if_neg heq] at hino
        exact Nat.lt_succ_of_lt (h.minted hino)

/-- A rename changes neither the inodes nor the handles. -/
theorem InodeTable.step_rename (t : InodeTable) (parentIno : Nat) (name : Text)
    (newparentIno : Nat) (newname : Text) (answer : DaemonAnswer) :
  t.step (.rename parentIno name newparentIno newname answer) = t
  := by
  unfold step renamePath
  dsimp only
  split
  · rfl
  · split
    · rfl
    · rfl

theorem InodeTable.Inv.step {t : InodeTable} (h : t.Inv) (call : FuseCall) :
  (t.step call).Inv
  := by
  cases call with
  | lookup parentIno name answer =>
      unfold InodeTable.step resolveChild
      dsimp only
      split
      · exact h
      · split
        · split
          · exact h.insertInode rfl
          · split
            · split
              · exact h.insertInode rfl
              · exact h
            · exact h
        · split
          · exact h.insertInode rfl
          · exact h
  | create parentIno name now ok =>
      unfold InodeTable.step create
      dsimp only
      split
      · exact h
      · split
        · exact h
        · split
          · exact h.of_maps rfl rfl rfl
          · apply InodeTable.Inv.insertInode _ rfl
            exact h.of_maps rfl rfl rfl
  | mkdir parentIno name now answer =>
      unfold InodeTable.step mkdirPath
      dsimp only
      split
      · exact h
      · split
        · exact h
        · split
          · exact h.insertInode rfl
          · exact h
  | unlink parentIno name answer => exact h
  | rmdir parentIno name answer => exact h
  | rename parentIno name newparentIno newname answer =>
      rw [t.step_rename]
      exact h
  | «open» ino answer =>
      unfold InodeTable.step openInode
      dsimp only
      split
      · exact h
      · split
        · exact h
        · split
          · exact h.of_maps rfl rfl rfl
          · exact h
  | release fh =>
      unfold InodeTable.step InodeTable.release
      dsimp only
      split
      · exact h
      · exact h.of_maps rfl rfl rfl

theorem InodeTable.inv_run (calls : List FuseCall) :
  (InodeTable.run calls).Inv
  := by
  unfold run
  have hfold : ∀ t : InodeTable, t.Inv → (calls.foldl InodeTable.step t).Inv := by
    induction calls with
    | nil => exact fun t h => h
    | cons call calls ih => exact fun t h => ih _ (h.step call)
  exact hfold new inv_new

/-- Inserting a node leaves the root. -/
theorem InodeTable.Inv.getInode_insertInode {t : InodeTable} (h : t.Inv) {node : FsNode}
    (hnode : node.inode = 0) :
  (t.insertInode node).2.getInode rootInode = t.getInode rootInode
  := by
  unfold InodeTable.insertInode getInode
  split
  · rename_i existing hexisting
    dsimp only
    rw [OrderedMap.get_set, if_neg (h.dynamic hexisting).symm]
  · dsimp only
    rw [if_pos hnode, OrderedMap.get_set, if_neg]
    have hfirst := h.first
    unfold firstDynInode at hfirst
    unfold rootInode
    omega

theorem InodeTable.Inv.getInode_step {t : InodeTable} (h : t.Inv) (call : FuseCall) :
  (t.step call).getInode rootInode = t.getInode rootInode
  := by
  cases call with
  | lookup parentIno name answer =>
      unfold InodeTable.step resolveChild
      dsimp only
      split
      · rfl
      · split
        · split
          · exact h.getInode_insertInode rfl
          · split
            · split
              · exact h.getInode_insertInode rfl
              · rfl
            · rfl
        · split
          · exact h.getInode_insertInode rfl
          · rfl
  | create parentIno name now ok =>
      unfold InodeTable.step create
      dsimp only
      split
      · rfl
      · split
        · rfl
        · split
          · rfl
          · exact InodeTable.Inv.getInode_insertInode (t := t.openHandle _ _ |>.2)
              (h.of_maps rfl rfl rfl) rfl
  | mkdir parentIno name now answer =>
      unfold InodeTable.step mkdirPath
      dsimp only
      split
      · rfl
      · split
        · rfl
        · split
          · exact h.getInode_insertInode rfl
          · rfl
  | unlink parentIno name answer => rfl
  | rmdir parentIno name answer => rfl
  | rename parentIno name newparentIno newname answer => rw [t.step_rename]
  | «open» ino answer =>
      unfold InodeTable.step openInode
      dsimp only
      split
      · rfl
      · split
        · rfl
        · split
          · rfl
          · rfl
  | release fh =>
      unfold InodeTable.step InodeTable.release
      dsimp only
      split
      · rfl
      · rfl

theorem InodeTable.getInode_run (calls : List FuseCall) :
  (InodeTable.run calls).getInode rootInode = some .root
  := by
  unfold run
  have hfold : ∀ t : InodeTable, t.Inv →
      (calls.foldl InodeTable.step t).getInode rootInode = t.getInode rootInode := by
    induction calls with
    | nil => exact fun t h => rfl
    | cons call calls ih => exact fun t h => (ih _ (h.step call)).trans (h.getInode_step call)
  exact hfold new inv_new

/-! ### Renaming -/

/-- When the call is a rename that returns `Ok`: the inode that named the source has the path of
the target after it, and so has every open handle of the source. -/
def InodeTable.FollowsRename (t : InodeTable) (call : FuseCall) : Prop :=
  ∀ parentIno name newparentIno newname drive source target,
    call = .rename parentIno name newparentIno newname .ok →
    t.renameTarget parentIno name newparentIno newname = .ok (drive, source, target) →
    (∀ ino, t.pathToInode.get (drive, source) = some ino →
      ∃ node, (t.step call).inodes.get ino = some node ∧ node.key = (drive, target)) ∧
    ∀ fh, t.openFiles.get fh = some (drive, source) →
      (t.step call).openFiles.get fh = some (drive, target)

/-- A rename that the daemon accepts is of a path that neither an inode nor a handle names, or
onto itself. -/
def InodeTable.RenamesUnnamed (t : InodeTable) (call : FuseCall) : Prop :=
  ∀ parentIno name newparentIno newname drive source target,
    call = .rename parentIno name newparentIno newname .ok →
    t.renameTarget parentIno name newparentIno newname = .ok (drive, source, target) →
    source = target ∨
      t.pathToInode.get (drive, source) = none ∧ ∀ fh, t.openFiles.get fh ≠ some (drive, source)

theorem InodeTable.Inv.followsRename_iff {t : InodeTable} (h : t.Inv) (call : FuseCall) :
  t.FollowsRename call ↔ t.RenamesUnnamed call
  := by
  constructor
  · rintro hfollows parentIno name newparentIno newname drive source target rfl htarget
    obtain ⟨hinode, hhandle⟩ := hfollows _ _ _ _ _ _ _ rfl htarget
    rw [t.step_rename] at hinode hhandle
    by_cases heq : source = target
    · exact .inl heq
    · refine .inr ⟨?_, ?_⟩
      · rw [Option.eq_none_iff_forall_ne_some]
        intro ino hino
        obtain ⟨node, hnode, hkey⟩ := hinode ino hino
        obtain ⟨node', hnode', hkey'⟩ := h.inverse.forward hino
        rw [hnode, Option.some.injEq] at hnode'
        rw [hnode', hkey', Prod.mk.injEq] at hkey
        exact heq hkey.2
      · intro fh hfh
        have hmoved := hhandle fh hfh
        rw [hfh, Option.some.injEq, Prod.mk.injEq] at hmoved
        exact heq hmoved.2
  · rintro hunnamed parentIno name newparentIno newname drive source target rfl htarget
    rw [t.step_rename]
    rcases hunnamed _ _ _ _ _ _ _ rfl htarget with rfl | ⟨hinode, hhandle⟩
    · exact ⟨fun ino hino => h.inverse.forward hino, fun fh hfh => hfh⟩
    · constructor
      · intro ino hino
        rw [hinode] at hino
        cases hino
      · intro fh hfh
        exact absurd hfh (hhandle fh)

/-- In every run the two maps are inverse in every state; and every rename of the run that
returns `Ok` is followed by the inode and the handles of its source exactly when every such
rename is of a path that none of them names, or onto itself. -/
theorem inodes_follow_iff (calls : List FuseCall) :
  (∀ before after, calls = before ++ after → (InodeTable.run before).Inverse) ∧
    ((∀ before call after, calls = before ++ call :: after →
        (InodeTable.run before).FollowsRename call) ↔
      ∀ before call after, calls = before ++ call :: after →
        (InodeTable.run before).RenamesUnnamed call)
  := by
  refine ⟨fun before after _ => (InodeTable.inv_run before).inverse, ?_⟩
  constructor
  · intro hfollows before call after hcalls
    exact ((InodeTable.inv_run before).followsRename_iff call).mp
      (hfollows before call after hcalls)
  · intro hunnamed before call after hcalls
    exact ((InodeTable.inv_run before).followsRename_iff call).mpr
      (hunnamed before call after hcalls)

/-- The kernel looks a file up, opens it and renames it. -/
def sampleRename : List FuseCall :=
  [.lookup 1 ['d'] (.drives [⟨['d'], [], []⟩]),
    .lookup 2 ['a'] (.attr ⟨.file, 0, 0, some 1, none⟩), .open 3 .openRead]

/-- After the rename the inode and the handle still have the old path. -/
theorem inodes_keep_old_path :
  (InodeTable.run sampleRename).pathToInode.get (['d'], ['/', 'a']) = some 3 ∧
    ((InodeTable.run sampleRename).renamePath 2 ['a'] 2 ['b'] .ok).1 = .ok () ∧
    ((InodeTable.run (sampleRename ++ [.rename 2 ['a'] 2 ['b'] .ok])).inodes.get 3).map
      FsNode.path = some ['/', 'a'] ∧
    (InodeTable.run (sampleRename ++ [.rename 2 ['a'] 2 ['b'] .ok])).openFiles.get 1 =
      some (['d'], ['/', 'a']) ∧
    ¬ (InodeTable.run sampleRename).FollowsRename (.rename 2 ['a'] 2 ['b'] .ok)
  := by
  refine ⟨by decide +kernel, by decide +kernel, by decide +kernel, by decide +kernel, ?_⟩
  intro hfollows
  have htarget : (InodeTable.run sampleRename).renameTarget 2 ['a'] 2 ['b'] =
      .ok (['d'], ['/', 'a'], ['/', 'b']) := by
    decide +kernel
  have hmoved := (hfollows 2 ['a'] 2 ['b'] _ _ _ rfl htarget).2 1 (by decide +kernel)
  exact absurd hmoved (by decide +kernel)

end AgentFs

import AgentFs.Context

/-!
# The storage adapters

`LocalStorageAdapter` keeps the current bytes of a file at its key and, content
addressed, the bytes of every version at `_afs-blobs/sha256/<hash>`; the version handle
it hands out is the hash.  `AgentS3Client` sends one request per call; S3 hands out the
version ids.  `sha256` is the hash function, `createHash("sha256")` in hex.

Each segment is one call of `files-sdk` or one S3 request.  A copy on S3 is one request;
it is modelled as a read and a write, which allows more interleavings.
-/

namespace AgentFs

open Async

/-- What `putObject` and `copyObject` return. -/
structure PutObjectResult where
  etag : Option Text
  versionId : Option Text
  deriving DecidableEq, Repr

/-- The key prefix of the content-addressed copies. -/
def blobPrefix : Text := "_afs-blobs/sha256/".toList

/-- The reserved key where the bytes with the given hash live. -/
def blobKey (hash : Text) : Text := blobPrefix ++ hash

/-- Where a key is stored.  The local backend resolves it to a path under the storage
root, in which empty segments play no part. -/
def locate : Backend → Text → Loc
  | .local, key => (key.splitOnP (· = '/')).filter (· ≠ [])
  | .s3 _, key => [key]

/-- Only the local adapter refuses keys: those with a NUL or a dot segment. -/
def assertKeyInsideDrive (backend : Backend) (key : Text) : Op Unit :=
  if backend ≠ .local ∨ KeyInsideDrive key then
    pure ()
  else if '\x00' ∈ key then
    throw (.validation { message := "Path must not contain NUL bytes", field := "path" })
  else
    throw (.validation
      { message := "Path must not contain '.' or '..' segments"
        field := "path"
        suggestion :=
          "Use the absolute path of the file inside the drive, e.g. /docs/report.pdf" })

/-- Store an object at a place. -/
def World.store! (w : World) (loc : Loc) (obj : Option Obj) : World :=
  { w with store := { w.store with objects := Function.update w.store.objects loc obj } }

/-- Keep an object under its S3 version id, when there is one. -/
def World.keepVersion (w : World) (key : Text) (versionId : Option Text) (obj : Obj) : World :=
  match versionId with
  | none => w
  | some v =>
      { w with store := { w.store with
          versions := Function.update w.store.versions key
            (Function.update (w.store.versions key) v (some obj)) } }

/-- `files.exists`. -/
def existsAt (loc : Loc) : Op Bool :=
  segment fun w x =>
    if x.fail then (.error .storage, .fault, w)
    else (.ok (w.store.objects loc).isSome, .probe loc (w.store.objects loc).isSome, w)

/-- Read the object at a place; a missing one is `NoSuchKey`. -/
def readAt (loc : Loc) (key : Text) : Op Obj :=
  segment fun w x =>
    if x.fail then (.error .storage, .fault, w)
    else match w.store.objects loc with
      | none => (.error (.noSuchKey key), .readObject loc none, w)
      | some obj => (.ok obj, .readObject loc (some obj), w)

/-- Upload the content-addressed copy of an object. -/
def uploadBlob (loc : Loc) (obj : Obj) : Op Unit :=
  segment fun w x =>
    if x.fail then (.error .storage, .fault, w)
    else (.ok (), .storeBlob loc obj, w.store! loc (some obj))

/-- Upload an object to the place of its key. -/
def uploadAt (loc : Loc) (obj : Obj) : Op Unit :=
  segment fun w x =>
    if x.fail then (.error .storage, .fault, w)
    else (.ok (), .storeObject loc obj, w.store! loc (some obj))

/-- S3 `PutObject`. -/
def putObjectS3 (versioningEnabled : Bool) (key : Text) (obj : Obj) : Op PutObjectResult :=
  segment fun w x =>
    if x.fail then (.error .storage, .fault, w)
    else
      let versionId := if versioningEnabled then x.versionId else none
      (.ok ⟨x.etag, versionId⟩, .storeObject [key] obj,
        (w.store! [key] (some obj)).keepVersion key versionId obj)

section

variable (sha256 : Bytes → Text)

/-- `putObject`.  The local adapter stores the content-addressed copy first, unless it
is there, then the current bytes. -/
def putObject : Backend → Text → Bytes → Option Text → Op PutObjectResult
  | .local, key, bytes, contentType => do
      assertKeyInsideDrive .local key
      let hash := sha256 bytes
      let blobLoc := locate .local (blobKey hash)
      let found ← existsAt blobLoc
      if found = false then
        uploadBlob blobLoc ⟨bytes, none⟩
      uploadAt (locate .local key) ⟨bytes, contentType⟩
      pure ⟨some hash, some hash⟩
  | .s3 versioningEnabled, key, bytes, contentType =>
      putObjectS3 versioningEnabled key ⟨bytes, contentType⟩

/-- `getObject` of the current object. -/
def getObject (backend : Backend) (key : Text) : Op Obj := do
  assertKeyInsideDrive backend key
  readAt (locate backend key) key

/-- `getObject` by version handle: on the local backend the content-addressed copy, on S3
the version S3 kept. -/
def getObjectVersion : Backend → Text → Text → Op Obj
  | .local, key, versionId => do
      assertKeyInsideDrive .local key
      assertKeyInsideDrive .local (blobKey versionId)
      readAt (locate .local (blobKey versionId)) key
  | .s3 _, key, versionId =>
      segment fun w x =>
        if x.fail then (.error .storage, .fault, w)
        else match w.store.versions key versionId with
          | none => (.error (.noSuchKey key), .readVersion key versionId none, w)
          | some obj => (.ok obj, .readVersion key versionId (some obj), w)

/-- `headObject`. -/
def headObject (backend : Backend) (key : Text) : Op Obj :=
  getObject backend key

/-- `deleteObject`: the current object only; a missing one is a no-op. -/
def deleteObject (backend : Backend) (key : Text) : Op Unit := do
  assertKeyInsideDrive backend key
  segment fun w x =>
    if x.fail then (.error .storage, .fault, w)
    else (.ok (), .removeObject (locate backend key), w.store! (locate backend key) none)

/-- `copyObject`: read the source, then put it at the destination. -/
def copyObject (backend : Backend) (fromKey toKey : Text) : Op PutObjectResult := do
  assertKeyInsideDrive backend fromKey
  assertKeyInsideDrive backend toKey
  let src ← getObject backend fromKey
  putObject sha256 backend toKey src.bytes src.contentType

end

end AgentFs

import AgentFs.Db
import AgentFs.Lib.Async

/-!
# Requests and the world they run in

A request runs in an `OpContext` over the `World`: the database and the object store.
It is a cooperative program whose segments are the stretches of code between two awaits.
Whatever a segment takes from outside (the clock, random ids, whether a call fails) is
its `Input`; the `Event` it reports says what it did to the tables and to the objects.
-/

namespace AgentFs

open Async

/-- The storage backend behind `ctx.s3`. -/
inductive Backend where
  /-- `LocalStorageAdapter`: a directory managed through `files-sdk`. -/
  | local
  /-- `AgentS3Client`, with or without bucket versioning. -/
  | s3 (versioningEnabled : Bool)
  deriving DecidableEq, Repr

/-- What a request knows about its caller and its drive. -/
structure OpContext where
  orgId : Text
  driveId : Text
  userId : Text
  backend : Backend
  deriving DecidableEq, Repr

/-- A place in the object store.  On the local backend it is the list of the path
segments under the storage root, on S3 the key itself. -/
abbrev Loc := List Text

/-- A stored object. -/
structure Obj where
  bytes : Bytes
  contentType : Option Text
  deriving DecidableEq, Repr

/-- The object store.  `objects` holds what is stored at each place; `versions` holds
the objects S3 keeps by key and version id. -/
structure Store where
  objects : Loc → Option Obj
  versions : Text → Text → Option Obj

/-- The store without an object. -/
def Store.empty : Store where
  objects _ := none
  versions _ _ := none

/-- The database and the object store. -/
structure World where
  db : Db
  store : Store

/-- The empty world. -/
def World.empty : World := ⟨.empty, .empty⟩

/-- What one segment takes from outside: whether its storage call or transaction fails,
the clock in milliseconds, the random ids it draws, the version id and ETag S3 hands out,
and the JSON text of the envelope of an event. -/
structure Input where
  fail : Bool
  now : Nat
  uuid : Nat → Text
  deliveryId : Nat → Text
  versionId : Option Text
  etag : Option Text
  payload : Text → Text

/-- What a segment did. -/
inductive Event where
  /-- Nothing to the tables or objects below. -/
  | silent
  /-- A storage call failed without effect. -/
  | fault
  /-- A test whether there is an object at a place. -/
  | probe (loc : Loc) (found : Bool)
  | readObject (loc : Loc) (obj : Option Obj)
  | readVersion (key versionId : Text) (obj : Option Obj)
  /-- A content-addressed copy was stored, outside every drive. -/
  | storeBlob (loc : Loc) (obj : Obj)
  | storeObject (loc : Loc) (obj : Obj)
  | removeObject (loc : Loc)
  | checkVersion (driveId path : Text) (expected : Int) (matched : Bool)
  | readHead (driveId path : Text) (row : Option FileVersionRow)
  | readRow (driveId path : Text) (version : Int) (row : Option FileVersionRow)
  /-- `createVersion` picked a version number. -/
  | allocate (driveId path : Text) (version : Nat)
  /-- The transaction of `createVersion` committed. -/
  | commit (row : FileVersionRow)
  /-- The transaction of `createVersion` threw. -/
  | abort (driveId path : Text) (version : Nat) (error : SqlError)
  deriving DecidableEq, Repr

/-- What the errors of `errors.ts` carry besides their code. -/
structure ErrorInfo where
  message : String
  path : Option Text := none
  field : Option String := none
  suggestion : Option String := none
  deriving DecidableEq, Repr

/-- How a request can fail. -/
inductive OpError where
  | editConflict (info : ErrorInfo)
  | notFound (info : ErrorInfo)
  | validation (info : ErrorInfo)
  /-- `AgentFSError("VERSIONING_REQUIRED", ..)`. -/
  | versioningRequired (info : ErrorInfo)
  | unsupportedOperation (operation : String)
  | permissionDenied (info : ErrorInfo)
  /-- A storage error of the not-found shape. -/
  | noSuchKey (key : Text)
  /-- Any other storage error. -/
  | storage
  | sql (e : SqlError)
  /-- A `TypeError`, from a row that is missing where the code expects one. -/
  | internal
  deriving DecidableEq, Repr

/-- The program of a request. -/
abbrev Op (α : Type) := Fallible World Input Event OpError α

/-- The program of one segment of a request. -/
abbrev segment {α : Type} (f : World → Input → Except OpError α × Event × World) : Op α :=
  Fallible.atomic f

/-- The configuration requests run over. -/
abbrev Config := Conf World Event

end AgentFs

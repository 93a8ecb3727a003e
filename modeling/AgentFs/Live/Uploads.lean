import AgentFs.Lib.Update
import AgentFs.Paths

/-!
# Uploads

`UploadStore` of `live/src/stores/upload.ts`, with what the buttons of the upload panel ask it for.
The requests and the answers of `putRaw` are kept in a log, and so are the toasts.
-/

namespace AgentFs

open Tabular

inductive UploadStatus where
  | queued
  | uploading
  | done
  /-- Waits for the user to replace or skip. -/
  | conflict
  | error
  /-- Over the size limit, never sent. -/
  | rejected
  | skipped
  deriving DecidableEq, Repr

def UploadStatus.isFinished : UploadStatus → Bool
  | .done | .error | .rejected | .skipped => true
  | .queued | .uploading | .conflict => false

structure UploadItem where
  id : Nat
  path : Text
  size : Nat
  status : UploadStatus
  version : Option Nat
  overwrite : Bool
  deriving DecidableEq, Repr

/-- A file of a drop, with its destination. -/
structure UploadInput where
  path : Text
  size : Nat
  deriving DecidableEq, Repr

/-- What `putRaw` answers. -/
inductive UploadAnswer where
  | ok (version : Nat)
  | conflict
  | aborted
  | failed
  deriving DecidableEq, Repr

inductive UploadLog where
  | request (id : Nat) (ifNoneMatch : Bool)
  | answer (id : Nat) (answer : UploadAnswer)
  | toast (done failed : Nat)
  deriving DecidableEq, Repr

structure Uploads where
  items : List UploadItem
  nextId : Nat
  /-- The runs that have not returned. -/
  running : List Nat
  done : Nat
  failed : Nat
  log : List UploadLog
  deriving DecidableEq, Repr

namespace Uploads

def maxConcurrentUploads : Nat := 3

def new : Uploads :=
  ⟨[], 1, [], 0, 0, []⟩

def update (id : Nat) (patch : UploadItem → UploadItem) (s : Uploads) : Uploads :=
  { s with items := Tabular.update (fun item => item.id = id) patch s.items }

def find? (id : Nat) (s : Uploads) : Option UploadItem :=
  s.items.find? (fun item => item.id = id)

/-- The begin of `run`, up to its request. -/
def run (id : Nat) (s : Uploads) : Uploads :=
  match s.find? id with
  | none => s
  | some item =>
      { s.update id (fun item => { item with status := .uploading }) with
        running := s.running ++ [id]
        log := s.log ++ [.request id (!item.overwrite)] }

/-- The loop of `pump`, over the items as they were. -/
def pumpItems : List UploadItem → Nat → Uploads → Uploads
  | [], _, s => s
  | item :: items, active, s =>
      if active ≥ maxConcurrentUploads then s
      else if item.status ≠ .queued then pumpItems items active s
      else pumpItems items (active + 1) (s.run item.id)

def pump (s : Uploads) : Uploads :=
  pumpItems s.items (s.items.filter (fun item => item.status = .uploading)).length s

/-- The item is not done with. -/
def pending (item : UploadItem) : Prop :=
  item.status = .queued ∨ item.status = .uploading ∨ item.status = .conflict

instance (item : UploadItem) : Decidable (pending item) :=
  inferInstanceAs (Decidable (_ ∨ _ ∨ _))

def summarizeIfDrained (s : Uploads) : Uploads :=
  if ∃ item ∈ s.items, pending item then s
  else if s.done = 0 ∧ s.failed = 0 then s
  else { s with done := 0, failed := 0, log := s.log ++ [.toast s.done s.failed] }

/-- The item of a file. -/
def newItem (maxUploadBytes id : Nat) (input : UploadInput) : UploadItem where
  id := id
  path := input.path
  size := input.size
  status := if input.size > maxUploadBytes then .rejected else .queued
  version := none
  overwrite := false

/-- `enqueue`, once the limit is known. -/
def enqueue (maxUploadBytes : Nat) (inputs : List UploadInput) (s : Uploads) : Uploads :=
  pump { s with
    items := s.items ++ inputs.mapIdx (fun i input => newItem maxUploadBytes (s.nextId + i) input)
    nextId := s.nextId + inputs.length }

def replace (id : Nat) (s : Uploads) : Uploads :=
  (s.update id (fun item => { item with status := .queued, overwrite := true })).pump

def skip (id : Nat) (s : Uploads) : Uploads :=
  (s.update id (fun item => { item with status := .skipped })).summarizeIfDrained

/-- `cancel`: one that is uploading is aborted, which its answer says. -/
def cancel (id : Nat) (s : Uploads) : Uploads :=
  match s.find? id with
  | none => s
  | some item => if item.status = .queued then s.skip id else s

def dismiss (id : Nat) (s : Uploads) : Uploads :=
  { s with items := s.items.filter (fun item => item.id ≠ id) }

def clearFinished (s : Uploads) : Uploads :=
  { s with items := s.items.filter (fun item => !item.status.isFinished) }

/-- What a run makes of its answer. -/
def settle (id : Nat) (answer : UploadAnswer) (s : Uploads) : Uploads :=
  match answer with
  | .ok version =>
      { s.update id (fun item => { item with status := .done, version := some version }) with
        done := s.done + 1 }
  | .conflict => s.update id (fun item => { item with status := .conflict })
  | .aborted => s.update id (fun item => { item with status := .skipped })
  | .failed =>
      { s.update id (fun item => { item with status := .error }) with failed := s.failed + 1 }

/-- `putRaw` answers a run, which returns. -/
def answered (id : Nat) (answer : UploadAnswer) (s : Uploads) : Uploads :=
  if id ∈ s.running then
    let returned : Uploads :=
      { s with running := s.running.erase id, log := s.log ++ [.answer id answer] }
    (returned.settle id answer).pump.summarizeIfDrained
  else s

end Uploads

inductive UploadAction where
  | enqueue (maxUploadBytes : Nat) (inputs : List UploadInput)
  | replace (id : Nat)
  | skip (id : Nat)
  | cancel (id : Nat)
  | dismiss (id : Nat)
  | clearFinished
  | answered (id : Nat) (answer : UploadAnswer)
  deriving DecidableEq, Repr

namespace Uploads

/-- The row of an item has the buttons to replace and to skip only in a conflict, and the one to
dismiss only when the item is finished. -/
def step (s : Uploads) : UploadAction → Uploads
  | .enqueue maxUploadBytes inputs => s.enqueue maxUploadBytes inputs
  | .replace id => if ∃ item ∈ s.find? id, item.status = .conflict then s.replace id else s
  | .skip id => if ∃ item ∈ s.find? id, item.status = .conflict then s.skip id else s
  | .cancel id => s.cancel id
  | .dismiss id => if ∃ item ∈ s.find? id, item.status.isFinished then s.dismiss id else s
  | .clearFinished => s.clearFinished
  | .answered id answer => s.answered id answer

def runAll (actions : List UploadAction) (s : Uploads) : Uploads :=
  actions.foldl step s

end Uploads

end AgentFs

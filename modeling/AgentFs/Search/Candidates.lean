import AgentFs.Lib.Distinct
import AgentFs.Search.Tables

/-!
# Vector candidates

`findVectorCandidates` of `search/vector-candidates.ts`: it scans for the nearest chunks, a few
for each file still needed, and scans again without the files already taken.  `runKnn` is the
scan, and `δ` are its distances.
-/

namespace AgentFs

open Distinct Tabular

def maxKnnResults : Nat := 4096

/-- Chunks fetched per file still needed. -/
def overfetch : Nat := 8

structure ChunkHit (δ : Type) where
  chunkId : Nat
  distance : δ
  deriving DecidableEq, Repr

structure KnnParams where
  query : Bytes
  driveId : Text
  excludedPaths : List Text
  k : Nat
  deriving DecidableEq, Repr

/-- The code units of a text in UTF-16. -/
def utf16Units (text : Text) : List Nat :=
  text.flatMap (fun c =>
    if c.toNat < 0x10000 then [c.toNat]
    else [0xD800 + (c.toNat - 0x10000) / 0x400, 0xDC00 + (c.toNat - 0x10000) % 0x400])

/-- A chunk of a live file, with what the file adds. -/
structure ChunkMatch where
  id : Nat
  path : Text
  content : Text
  page : Option Nat
  kind : ChunkKind
  author : Text
  modifiedAt : Nat
  deriving DecidableEq, Repr

/-- A candidate; the snippet is in code units of UTF-16. -/
structure VectorCandidate (δ : Type) where
  path : Text
  distance : δ
  snippet : List Nat
  page : Option Nat
  kind : ChunkKind
  author : Text
  modifiedAt : Nat
  deriving DecidableEq, Repr

def chunkMatch (chunk : ChunkRow) (file : IndexedFile) : ChunkMatch where
  id := chunk.id
  path := chunk.filePath
  content := chunk.content
  page := chunk.page
  kind := chunk.kind
  author := file.author
  modifiedAt := file.modifiedAt

/-- The join of the chunks with the given ids and the live files of the drive. -/
def chunkMatches (db : SearchTables) (driveId : Text) (ids : List Nat) : List ChunkMatch :=
  (db.contentChunks.filter (fun chunk => chunk.id ∈ ids ∧ chunk.driveId = driveId)).flatMap
    (fun chunk =>
      (db.files.filter (fun file => file.driveId = chunk.driveId ∧ file.path = chunk.filePath ∧
        file.isDeleted = false)).map (chunkMatch chunk))

/-- The entry of the map of the matches by their ids. -/
def matchById (found : List ChunkMatch) (id : Nat) : Option ChunkMatch :=
  (found.filter (fun m => m.id = id)).getLast?

variable {δ : Type}

def vectorCandidate (hit : ChunkHit δ) (m : ChunkMatch) : VectorCandidate δ where
  path := m.path
  distance := hit.distance
  snippet :=
    if m.kind = .image then
      match m.page with
      | none => utf16Units "[image]".toList
      | some page => utf16Units ("[PDF page " ++ toString page ++ "]").toList
    else (utf16Units m.content).take 200
  page := m.page
  kind := m.kind
  author := m.author
  modifiedAt := m.modifiedAt

/-- Append the first live chunk of each new file, in distance order.  The selected paths are
those of the candidates. -/
def addDistinctFiles (found : List ChunkMatch) (limit : Nat) :
    List (ChunkHit δ) → List (VectorCandidate δ) → List (VectorCandidate δ)
  | [], candidates => candidates
  | hit :: hits, candidates =>
      if candidates.length = limit then candidates
      else
        match matchById found hit.chunkId with
        | none => addDistinctFiles found limit hits candidates
        | some m =>
            if m.path ∈ candidates.map VectorCandidate.path then
              addDistinctFiles found limit hits candidates
            else addDistinctFiles found limit hits (candidates ++ [vectorCandidate hit m])

section

variable (runKnn : KnnParams → List (ChunkHit δ)) (db : SearchTables) (driveId : Text)
  (query : Bytes) (limit : Nat)

/-- The chunks of a scan, as many as are fetched for the files still needed. -/
def scanSize (taken : Nat) : Nat :=
  min ((limit - taken) * overfetch) maxKnnResults

/-- The loop over the scans; none when the fuel runs out. -/
def candidatesLoop : Nat → List (VectorCandidate δ) → Option (List (VectorCandidate δ))
  | 0, _ => none
  | fuel + 1, candidates =>
      if candidates.length < limit then
        let k := scanSize limit candidates.length
        let hits := runKnn ⟨query, driveId, candidates.map VectorCandidate.path, k⟩
        if hits = [] then some candidates
        else
          let found := chunkMatches db driveId (hits.map ChunkHit.chunkId)
          let added := addDistinctFiles found limit hits candidates
          -- Fewer hits than asked for: every remaining chunk was seen.
          if hits.length < k ∨ added.length = candidates.length then some added
          else candidatesLoop fuel added
      else some candidates

/-- Exact scan of every stored vector. -/
def findVectorCandidates (fuel : Nat) : Option (List (VectorCandidate δ)) :=
  candidatesLoop runKnn db driveId query limit fuel []

end

end AgentFs

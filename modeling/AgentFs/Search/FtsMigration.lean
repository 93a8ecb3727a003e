import AgentFs.Search.Operations

/-!
# The migration of the full-text index

`prepareFtsMigration` renames the full-text table of the old layout, and `runFtsMigration`
copies its rows to `files_fts_docs` slice by slice, with a cursor in `meta`.  Until the old
table is dropped, `ftsQuery` reads both.
-/

namespace AgentFs

open Async

/-- Rename `files_fts` of the old layout. -/
def prepareFtsMigration (w : SearchWorld) : SearchWorld :=
  match w.index.ftsInternal with
  | none => w
  | some rows => { w with index := { w.index with
      ftsInternal := none
      ftsLegacy := some rows } }

/-! ### The copy -/

/-- `FtsMigrationOptions`. -/
structure FtsMigrationOpts where
  batchSize : Nat
  batchBytes : Nat
  deriving DecidableEq, Repr

/-- The live file at a path. -/
def isLive (db : Db) (driveId path : Text) : Bool :=
  (db.filesOf driveId path).any (fun f => f.isDeleted = false)

/-- There is a document of the path. -/
def docExists (docs : List FtsDocRow) (driveId path : Text) : Bool :=
  docs.any (fun d => d.At driveId path)

/-- The legacy rows after `cursor`, in the order of their ids. -/
def selectBatch (cursor batchSize : Nat) (rows : List FtsRow) : List FtsRow :=
  ((rows.filter (fun r => r.rowid > cursor)).mergeSort (fun r s => r.rowid ≤ s.rowid)).take
    batchSize

/-- Rows that fit in the budget with the bytes that are taken already, and the others. -/
def takeSlice (batchBytes : Nat) : Nat → List FtsRow → List FtsRow × List FtsRow
  | _, [] => ([], [])
  | bytes, row :: rows =>
      if bytes + utf16Length row.content ≤ batchBytes then
        let rest := takeSlice batchBytes (bytes + utf16Length row.content) rows
        (row :: rest.1, rest.2)
      else ([], row :: rows)

/-- Copy a row, unless its file is deleted or has a document. -/
def copyRow (row : FtsRow) (w : SearchWorld) : SearchWorld :=
  if isLive w.world.db row.driveId row.path = false ∨
      docExists w.index.ftsDocs row.driveId row.path = true then w
  else insertDoc row.driveId row.path row.content w

/-- The transaction that copies a slice and moves the cursor to `cursor`. -/
def copyBatch (rows : List FtsRow) (cursor : Nat) (w : SearchWorld) : SearchWorld :=
  let w := rows.foldl (fun w row => copyRow row w) w
  { w with metaRows := { w.metaRows with ftsMigrationCursor := some cursor } }

/-- The transaction that drops the legacy table. -/
def dropLegacy (w : SearchWorld) : SearchWorld :=
  { w with
    index := { w.index with ftsLegacy := none }
    metaRows := { w.metaRows with ftsMigrationCursor := none } }

/-- Where a segment of the copy leaves it. -/
inductive CopyNext where
  | done
  /-- The rows of the batch that are still to be copied, and the cursor. -/
  | more (rows : List FtsRow) (cursor : Nat)
  deriving DecidableEq, Repr

/-- Copy the first slice of `row :: rows`, unless the transaction throws. -/
def copySlice (opts : FtsMigrationOpts) (row : FtsRow) (rows : List FtsRow) (w : SearchWorld)
    (x : SearchInput) : Except OpError CopyNext × SearchEvent × SearchWorld :=
  let slice := takeSlice opts.batchBytes (utf16Length row.content) rows
  let cursor := ((row :: slice.1).getLast?.getD row).rowid
  if x.insertFails 0 then (.error (.sql .other), .silent, w)
  else (.ok (.more slice.2 cursor), .copiedBatch (row :: slice.1),
    copyBatch (row :: slice.1) cursor w)

/-- A segment of the copy: the next slice of the batch, or the first slice of the next batch,
or the end. -/
def copyStep (opts : FtsMigrationOpts) (rows : List FtsRow) (cursor : Nat) :
    SearchOp CopyNext :=
  searchSegment fun w x =>
    match rows with
    | row :: rows => copySlice opts row rows w x
    | [] =>
        match selectBatch cursor opts.batchSize (w.index.ftsLegacy.getD []) with
        | row :: rows => copySlice opts row rows w x
        | [] =>
            if x.insertFails 0 then (.error (.sql .other), .silent, w)
            else (.ok .done, .droppedLegacy, dropLegacy w)

/-- The loop over the slices. -/
def copyLegacyRows (opts : FtsMigrationOpts) : Nat → List FtsRow → Nat → SearchOp Unit
  | 0, _, _ => pure ()
  | fuel + 1, rows, cursor => do
      match ← copyStep opts rows cursor with
      | .done => pure ()
      | .more rows cursor => copyLegacyRows opts fuel rows cursor

/-- The copy starts where the cursor in `meta` stands.  The setting of the merges is not
modelled. -/
def runFtsMigration (opts : FtsMigrationOpts) (fuel : Nat) : SearchOp Unit := do
  let cursor ← searchSegment fun w _ =>
    (.ok (if w.index.ftsLegacy.isSome then some (w.metaRows.ftsMigrationCursor.getD 0) else none),
      .silent, w)
  match cursor with
  | none => pure ()
  | some cursor => copyLegacyRows opts fuel [] cursor

/-! ### The query -/

/-- `MAX_RESULTS`. -/
def maxResults : Nat := 50

/-- What FTS5 does with a pattern: whether it matches a text, how a table of texts ranks the
text, and the snippet; and how `LIKE` compares a path with a prefix. -/
structure FtsEngine where
  isMatch : Text → Text → Bool
  rank : List Text → Text → Text → Int
  snippet : Text → Text → Text
  startsLike : Text → Text → Bool

/-- A result of `ftsQuery`. -/
structure FtsMatch where
  path : Text
  snippet : Text
  rank : Int
  deriving DecidableEq, Repr

/-- The parameters of `ftsQuery`. -/
structure FtsQueryParams where
  pattern : Text
  driveId : Text
  pathPrefix : Option Text
  deriving DecidableEq, Repr

/-- A row of either full-text table that a query looks at. -/
structure FtsCandidate where
  driveId : Text
  path : Text
  content : Text
  deriving DecidableEq, Repr

section

variable (engine : FtsEngine)

/-- The row matches the pattern, in the drive and under the prefix. -/
def FtsQueryParams.Matches (params : FtsQueryParams) (c : FtsCandidate) : Prop :=
  engine.isMatch params.pattern c.content = true ∧ c.driveId = params.driveId ∧
    params.pathPrefix.all (fun pre => engine.startsLike pre c.path) = true

instance FtsQueryParams.decidableMatches (params : FtsQueryParams) (c : FtsCandidate) :
    Decidable (params.Matches engine c) :=
  inferInstanceAs (Decidable (_ ∧ _))

/-- The matching rows of a table. -/
def ftsCandidates (params : FtsQueryParams) (table : List FtsCandidate) : List FtsCandidate :=
  table.filter (fun c => params.Matches engine c)

/-- The results of a query on a table, best first, from its candidates. -/
def ftsQueryTable (params : FtsQueryParams) (table candidates : List FtsCandidate) :
    List FtsMatch :=
  ((candidates.map (fun c => (⟨c.path, engine.snippet params.pattern c.content,
      engine.rank (table.map FtsCandidate.content) params.pattern c.content⟩ : FtsMatch))).mergeSort
    (fun a b => a.rank ≤ b.rank)).take maxResults

/-- The documents as candidates. -/
def docTable (w : SearchWorld) : List FtsCandidate :=
  w.index.ftsDocs.map (fun d => ⟨d.driveId, d.path, d.content⟩)

/-- The legacy rows as candidates. -/
def legacyTable (w : SearchWorld) : List FtsCandidate :=
  (w.index.ftsLegacy.getD []).map (fun r => ⟨r.driveId, r.path, r.content⟩)

/-- The new layout has not superseded the legacy row. -/
def legacyRowIsCurrent (w : SearchWorld) (c : FtsCandidate) : Prop :=
  isLive w.world.db c.driveId c.path = true ∧
    docExists w.index.ftsDocs c.driveId c.path = false

instance (w : SearchWorld) (c : FtsCandidate) : Decidable (legacyRowIsCurrent w c) :=
  inferInstanceAs (Decidable (_ ∧ _))

/-- The candidates of a query in both tables. -/
def queryCandidates (params : FtsQueryParams) (w : SearchWorld) :
    List FtsCandidate × List FtsCandidate :=
  (ftsCandidates engine params (docTable w),
    (ftsCandidates engine params (legacyTable w)).filter (fun c => legacyRowIsCurrent w c))

def ftsQuery (params : FtsQueryParams) (w : SearchWorld) : List FtsMatch :=
  let candidates := queryCandidates engine params w
  let results := ftsQueryTable engine params (docTable w) candidates.1
  match w.index.ftsLegacy with
  | none => results
  | some _ =>
      ((results ++ ftsQueryTable engine params (legacyTable w) candidates.2).mergeSort
        (fun a b => a.rank ≤ b.rank)).take maxResults

end

end AgentFs

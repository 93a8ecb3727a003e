import AgentFs.Db
import AgentFs.Lib.Table

/-!
# The tables of the search index

The rows of `files` with their status columns, the chunks and vectors of the semantic
index, and the documents of the full-text index.  The FTS5 table `files_fts` follows
`files_fts_docs` through triggers and has no rows of its own here, except while it still
has the old layout with internal content; `files_fts_legacy` is that old table after
its renaming.
-/

namespace AgentFs

open Tabular

/-- `files.embedding_status`. -/
inductive EmbeddingStatus where
  | pending
  | indexed
  | failed
  | skipped
  deriving DecidableEq, Repr

/-- `files.image_embedding_status`. -/
inductive ImageEmbeddingStatus where
  | pending
  | indexed
  | failed
  deriving DecidableEq, Repr

/-- A row of `files` with the status columns of the search index. -/
structure IndexedFile extends FileRow where
  embeddingStatus : Option EmbeddingStatus
  imageEmbeddingStatus : Option ImageEmbeddingStatus
  deriving DecidableEq, Repr

/-- `content_chunks.kind`. -/
inductive ChunkKind where
  | text
  | image
  deriving DecidableEq, Repr

/-- A row of `content_chunks`, with primary key `id`. -/
structure ChunkRow where
  id : Nat
  filePath : Text
  driveId : Text
  chunkIndex : Nat
  content : Text
  charOffset : Nat
  tokenCount : Nat
  page : Option Nat
  kind : ChunkKind
  deriving DecidableEq, Repr

/-- A row of `chunk_vectors`, with primary key `chunkId`. -/
structure VectorRow where
  chunkId : Nat
  embedding : Bytes
  deriving DecidableEq, Repr

/-- A row of `files_fts_docs`, with primary key `id` and `UNIQUE(drive_id, path)`. -/
structure FtsDocRow where
  id : Nat
  driveId : Text
  path : Text
  content : Text
  deriving DecidableEq, Repr

/-- A row of a full-text table with internal content. -/
structure FtsRow where
  rowid : Nat
  driveId : Text
  path : Text
  content : Text
  deriving DecidableEq, Repr

/-- The tables of the search index.  `chunkSeq` and `ftsDocSeq` are the AUTOINCREMENT
counters of `content_chunks` and `files_fts_docs`.  `ftsInternal` holds the rows of
`files_fts` while it has the old layout, `ftsLegacy` those of `files_fts_legacy` while
that table exists. -/
structure IndexTables where
  contentChunks : List ChunkRow
  chunkSeq : Nat
  chunkVectors : List VectorRow
  ftsDocs : List FtsDocRow
  ftsDocSeq : Nat
  ftsInternal : Option (List FtsRow)
  ftsLegacy : Option (List FtsRow)
  deriving DecidableEq, Repr

/-- The tables of the search index without a row. -/
def IndexTables.empty : IndexTables where
  contentChunks := []
  chunkSeq := 0
  chunkVectors := []
  ftsDocs := []
  ftsDocSeq := 0
  ftsInternal := none
  ftsLegacy := none

/-- The search index together with the files it is about. -/
structure SearchTables extends IndexTables where
  files : List IndexedFile
  deriving DecidableEq, Repr

/-- The search tables without a row. -/
def SearchTables.empty : SearchTables where
  toIndexTables := .empty
  files := []

/-- Delete the vectors of the chunks with `p`, then the chunks. -/
def IndexTables.deleteChunksWhere (db : IndexTables) (p : ChunkRow → Prop) [DecidablePred p] :
    IndexTables :=
  let ids := (db.contentChunks.filter (fun c => p c)).map ChunkRow.id
  { db with
    chunkVectors := db.chunkVectors.filter (fun v => v.chunkId ∉ ids)
    contentChunks := db.contentChunks.filter (fun c => ¬ p c) }

/-- The primary key of `files`. -/
def fileKey (f : IndexedFile) : Text × Text := (f.path, f.driveId)

/-- The key of `files_fts_docs_drive_path_uq`. -/
def docKey (d : FtsDocRow) : Text × Text := (d.driveId, d.path)

/-- The key of `file_versions_path_drive_version_uq`. -/
def versionKey (r : FileVersionRow) : Text × Text × Nat := (r.path, r.driveId, r.version)

/-- The row is of a path in a drive. -/
def IndexedFile.At (driveId path : Text) (f : IndexedFile) : Prop :=
  f.driveId = driveId ∧ f.path = path

instance (driveId path : Text) (f : IndexedFile) : Decidable (f.At driveId path) :=
  inferInstanceAs (Decidable (_ ∧ _))

/-- The chunk is of a path in a drive. -/
def ChunkRow.At (driveId path : Text) (c : ChunkRow) : Prop :=
  c.driveId = driveId ∧ c.filePath = path

instance (driveId path : Text) (c : ChunkRow) : Decidable (c.At driveId path) :=
  inferInstanceAs (Decidable (_ ∧ _))

/-- The document is of a path in a drive. -/
def FtsDocRow.At (driveId path : Text) (d : FtsDocRow) : Prop :=
  d.driveId = driveId ∧ d.path = path

instance (driveId path : Text) (d : FtsDocRow) : Decidable (d.At driveId path) :=
  inferInstanceAs (Decidable (_ ∧ _))

/-- The full-text row is of a path in a drive. -/
def FtsRow.At (driveId path : Text) (r : FtsRow) : Prop :=
  r.driveId = driveId ∧ r.path = path

instance (driveId path : Text) (r : FtsRow) : Decidable (r.At driveId path) :=
  inferInstanceAs (Decidable (_ ∧ _))

end AgentFs

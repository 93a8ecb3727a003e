import AgentFs.Migrations.PathNormalization

/-!
# Reconciling the search index

What the functions that reconcile the search index leave of the rows of one path: the rows
of the bare spelling are gone, and a row that is new is under the canonical spelling.
-/

namespace AgentFs.PathNormalization

open Tabular

/-- The full-text rows with a bare path are rows the table had when the migration began. -/
def Tracked (table : Option VirtualFtsTable) (rows : Option (List FtsRow)) : Prop :=
  ∀ l ∈ rows, ∃ t ∈ table, ∀ r ∈ l, IsBare r.path → r ∈ t.rows

/-- No row of the bare spelling is left in a full-text table, and no row got a bare path. -/
def VirtualReindexed (driveId barePath : Text) (rows rows' : Option (List FtsRow)) : Prop :=
  ∀ l' ∈ rows', ∃ l ∈ rows, ∀ r ∈ l', IsBare r.path → r ∈ l ∧ ¬ r.At driveId barePath

/-- What reconciling the rows of one path does to the search tables. -/
structure Reindexed (fts : FtsTables) (driveId barePath canonicalPath : Text)
    (db db' : SearchTables) : Prop where
  files : db'.files = db.files
  chunks : ∀ c ∈ db'.contentChunks,
    (c ∈ db.contentChunks ∧ ¬ c.At driveId barePath) ∨ c.At driveId canonicalPath
  docs : ∀ d ∈ db'.ftsDocs,
    (d ∈ db.ftsDocs ∧ ¬ d.At driveId barePath) ∨ d.At driveId canonicalPath
  docs_keyed : Keyed docKey db'.ftsDocs
  internal : Tracked fts.internal db.ftsInternal →
    VirtualReindexed driveId barePath db.ftsInternal db'.ftsInternal
  legacy : Tracked fts.legacy db.ftsLegacy →
    VirtualReindexed driveId barePath db.ftsLegacy db'.ftsLegacy

variable {driveId barePath canonicalPath : Text}

theorem Tracked.step {table : Option VirtualFtsTable} {rows rows' : Option (List FtsRow)}
    (h : Tracked table rows) (hstep : VirtualReindexed driveId barePath rows rows') :
  Tracked table rows'
  := by
  intro l' hl'
  obtain ⟨l, hl, hrows⟩ := hstep l' hl'
  obtain ⟨t, ht, htrack⟩ := h l hl
  refine ⟨t, ht, ?_⟩
  intro r hr hbare
  exact htrack r (hrows r hr hbare).1 hbare

/-! ### Chunks and documents -/

/-- The chunks kept are those of other paths and of the canonical spelling. -/
theorem reconcileChunks_chunks (db : SearchTables)
    (preferCanonical : Bool) {c : ChunkRow}
    (hc : c ∈ (reconcileChunks db driveId barePath canonicalPath preferCanonical).2.contentChunks) :
  (c ∈ db.contentChunks ∧ ¬ c.At driveId barePath) ∨ c.At driveId canonicalPath
  := by
  unfold reconcileChunks at hc
  cases preferCanonical with
  | true =>
      simp [deleteChunks, IndexTables.deleteChunksWhere] at hc
      exact .inl hc
  | false =>
      simp only [deleteChunks, IndexTables.deleteChunksWhere, Bool.false_eq_true, if_false, not_false_eq_true, true_and] at hc
      split at hc
      · rcases mem_update.mp hc with ⟨d, hd, hbare, rfl⟩ | ⟨hc, hbare⟩
        · exact .inr ⟨hbare.1, rfl⟩
        · exact .inl ⟨List.mem_of_mem_filter hc, hbare⟩
      · rename_i hnone
        left
        refine ⟨List.mem_of_mem_filter hc, ?_⟩
        intro hbare
        apply hnone
        rw [List.any_eq_true]
        exact ⟨c, List.mem_of_mem_filter hc, decide_eq_true hbare⟩

/-- Apart from the chunks and their vectors, nothing changes. -/
theorem reconcileChunks_frame (db : SearchTables) (driveId barePath canonicalPath : Text)
    (preferCanonical : Bool) :
  let db' := (reconcileChunks db driveId barePath canonicalPath preferCanonical).2
  db'.files = db.files ∧ db'.ftsDocs = db.ftsDocs ∧ db'.ftsInternal = db.ftsInternal ∧
    db'.ftsLegacy = db.ftsLegacy
  := by
  cases preferCanonical with
  | true => exact ⟨rfl, rfl, rfl, rfl⟩
  | false =>
      unfold reconcileChunks
      simp only [Bool.false_eq_true, if_false, not_false_eq_true, true_and]
      split <;> exact ⟨rfl, rfl, rfl, rfl⟩

/-- The renaming of the one document of the bare spelling finds the canonical place free. -/
theorem reconcilePathTable_ok (driveId : Text)
    (db : SearchTables) (hkeyed : Keyed docKey db.ftsDocs) (preferCanonical : Bool) :
  ∃ has docs, reconcilePathTable db driveId barePath canonicalPath preferCanonical
      = .ok (has, { db with ftsDocs := docs }) ∧ Keyed docKey docs ∧
    ∀ d ∈ docs, (d ∈ db.ftsDocs ∧ ¬ d.At driveId barePath) ∨ d.At driveId canonicalPath
  := by
  cases preferCanonical with
  | true =>
      refine ⟨_, db.ftsDocs.filter (fun d => ¬ d.At driveId barePath), rfl, hkeyed.filter _, ?_⟩
      intro d hd
      rw [List.mem_filter, decide_eq_true_iff] at hd
      exact .inl hd
  | false =>
      by_cases hhas : db.ftsDocs.any (fun d => d.At driveId barePath) = true
      · set docs := db.ftsDocs.filter (fun d => ¬ d.At driveId canonicalPath) with hdocs
        have hdocsKeyed : Keyed docKey docs := hkeyed.filter _
        have hmoved : Keyed docKey (update (fun d => d.At driveId barePath)
            (fun d => { d with path := canonicalPath }) docs) := by
          apply hdocsKeyed.update_of_free
          · intro r hr s hs hr' hs' _
            unfold docKey
            rw [hr'.1, hr'.2, hs'.1, hs'.2]
          · intro r hr s hs hr' _ heq
            unfold docKey at heq
            simp only [Prod.mk.injEq] at heq
            rw [hdocs, List.mem_filter, decide_eq_true_iff] at hs
            exact hs.2 ⟨heq.1.symm.trans hr'.1, heq.2.symm⟩
        refine ⟨true, _, ?_, hmoved, ?_⟩
        · unfold reconcilePathTable
          simp only [Bool.false_eq_true, if_false, not_false_eq_true, true_and, hhas, if_true]
          rw [← hdocs, checked_of_keyed hmoved]
          rfl
        · intro d hd
          rcases mem_update.mp hd with ⟨e, he, hbare, rfl⟩ | ⟨hd, hbare⟩
          · exact .inr ⟨hbare.1, rfl⟩
          · exact .inl ⟨List.mem_of_mem_filter hd, hbare⟩
      · refine ⟨false, db.ftsDocs.filter (fun d => ¬ d.At driveId canonicalPath), ?_,
          hkeyed.filter _, ?_⟩
        · unfold reconcilePathTable
          simp only [Bool.false_eq_true, if_false, not_false_eq_true, true_and, hhas]
          rfl
        · intro d hd
          left
          refine ⟨List.mem_of_mem_filter hd, ?_⟩
          intro hbare
          apply hhas
          rw [List.any_eq_true]
          exact ⟨d, List.mem_of_mem_filter hd, decide_eq_true hbare⟩

/-! ### Full-text tables -/

/-- A row of the bare spelling is among those looked up by its key. -/
theorem VirtualFtsTable.mem_rowIds {table : VirtualFtsTable} {r : FtsRow} (hr : r ∈ table.rows) :
  r.rowid ∈ table.rowIds (key r.driveId r.path)
  := by
  unfold rowIds
  rw [List.mem_map]
  exact ⟨r, by simp [hr], rfl⟩

theorem reconcileVirtual_reindexed (hcanonical : ¬ IsBare canonicalPath)
    {table : Option VirtualFtsTable} {rows : Option (List FtsRow)} (h : Tracked table rows)
    (preferCanonical : Bool) :
  VirtualReindexed driveId barePath rows
    (reconcileVirtual table rows driveId barePath canonicalPath preferCanonical).2
  := by
  intro l' hl'
  cases rows with
  | none =>
      cases table <;> simp [reconcileVirtual] at hl'
  | some l =>
      obtain ⟨t, ht, htrack⟩ := h l rfl
      cases ht
      simp only [reconcileVirtual, Option.map_some, Option.getD_some, Option.mem_def,
        Option.some.injEq] at hl'
      subst hl'
      refine ⟨l, rfl, ?_⟩
      intro r hr hbare
      unfold reconcileVirtualFtsRows at hr
      cases preferCanonical with
      | true =>
          simp only [if_true, List.mem_filter, decide_eq_true_iff] at hr
          refine ⟨hr.1, ?_⟩
          rintro ⟨rfl, rfl⟩
          exact hr.2 (VirtualFtsTable.mem_rowIds (htrack r hr.1 hbare))
      | false =>
          simp only [Bool.false_eq_true, if_false] at hr
          rcases mem_update.mp hr with ⟨s, _, _, rfl⟩ | ⟨hr, hpreferred⟩
          · exact absurd hbare hcanonical
          · have hmem := List.mem_of_mem_filter hr
            refine ⟨hmem, ?_⟩
            rintro ⟨rfl, rfl⟩
            exact hpreferred (VirtualFtsTable.mem_rowIds (htrack r hmem hbare))

theorem deleteVirtual_reindexed {table : Option VirtualFtsTable}
    {rows : Option (List FtsRow)} (h : Tracked table rows) :
  VirtualReindexed driveId barePath rows
    (deleteVirtual table rows driveId barePath canonicalPath)
  := by
  intro l' hl'
  cases rows with
  | none =>
      cases table <;> simp [deleteVirtual] at hl'
  | some l =>
      obtain ⟨t, ht, htrack⟩ := h l rfl
      cases ht
      simp only [deleteVirtual, Option.map_some, Option.mem_def, Option.some.injEq] at hl'
      subst hl'
      refine ⟨l, rfl, ?_⟩
      intro r hr hbare
      rw [List.mem_filter, decide_eq_true_iff] at hr
      refine ⟨hr.1, ?_⟩
      rintro ⟨rfl, rfl⟩
      apply hr.2
      rw [List.mem_append]
      exact .inl (VirtualFtsTable.mem_rowIds (htrack r hr.1 hbare))

/-! ### The index as a whole -/

variable {fts : FtsTables} {db : SearchTables}

/-- Both parts of the index are reconciled, whichever spelling is preferred. -/
theorem reconcile_ok (barePath : Text) (hcanonical : ¬ IsBare canonicalPath)
    (fts : FtsTables) (db : SearchTables) (driveId : Text) (hkeyed : Keyed docKey db.ftsDocs)
    (preferCanonical : Bool) :
  ∃ has db', reconcileFtsRows fts
      (reconcileChunks db driveId barePath canonicalPath preferCanonical).2
      driveId barePath canonicalPath preferCanonical = .ok (has, db') ∧
    Reindexed fts driveId barePath canonicalPath db db'
  := by
  obtain ⟨hfiles, hdocs, hint, hleg⟩ :=
    reconcileChunks_frame db driveId barePath canonicalPath preferCanonical
  set chunked := (reconcileChunks db driveId barePath canonicalPath preferCanonical).2
    with hchunked
  obtain ⟨has, docs, hok, hdocsKeyed, hdocsMem⟩ := reconcilePathTable_ok driveId
    chunked (by rw [hdocs]; exact hkeyed) preferCanonical
  unfold reconcileFtsRows
  rw [hok]
  refine ⟨_, _, rfl, ?_⟩
  constructor
  case files => exact hfiles
  case chunks =>
    intro c hc
    exact reconcileChunks_chunks db preferCanonical hc
  case docs =>
    intro d hd
    rw [← hdocs]
    exact hdocsMem d hd
  case docs_keyed => exact hdocsKeyed
  case internal =>
    intro htracked
    dsimp only
    rw [hint]
    exact reconcileVirtual_reindexed hcanonical htracked preferCanonical
  case legacy =>
    intro htracked
    dsimp only
    rw [hleg]
    exact reconcileVirtual_reindexed hcanonical htracked preferCanonical

/-- Deleting every row of the two spellings. -/
theorem deleteAllIndexRows_reindexed (hkeyed : Keyed docKey db.ftsDocs) :
  Reindexed fts driveId barePath canonicalPath db
    (deleteAllIndexRows fts db driveId barePath canonicalPath)
  := by
  constructor
  case files => rfl
  case chunks =>
    intro c hc
    left
    have hfirst : c ∈ (deleteChunks db driveId barePath).contentChunks :=
      List.mem_of_mem_filter hc
    simp only [deleteChunks, IndexTables.deleteChunksWhere, List.mem_filter, decide_eq_true_iff] at hfirst
    exact hfirst
  case docs =>
    intro d hd
    left
    simp only [deleteAllIndexRows, List.mem_filter, decide_eq_true_iff] at hd
    refine ⟨hd.1, ?_⟩
    intro hbare
    exact hd.2 ⟨hbare.1, .inl hbare.2⟩
  case docs_keyed => exact hkeyed.filter _
  case internal => exact deleteVirtual_reindexed
  case legacy => exact deleteVirtual_reindexed

/-- The index of a merged path is reconciled without breaking an index. -/
theorem mergeIndex_ok (barePath : Text) (hcanonical : ¬ IsBare canonicalPath)
    (fts : FtsTables) (db : SearchTables) (driveId : Text) (hkeyed : Keyed docKey db.ftsDocs)
    (versions : List FileVersionRow)
    (files : List IndexedFile) :
  ∃ status db', mergeIndex fts db versions files driveId barePath canonicalPath
      = .ok (status, db') ∧ Reindexed fts driveId barePath canonicalPath db db'
  := by
  by_cases hdeleted : mergedIsDeleted versions files = true
  · refine ⟨sourceStatus versions files, _, ?_, deleteAllIndexRows_reindexed hkeyed⟩
    unfold mergeIndex
    rw [if_pos hdeleted]
  · obtain ⟨has, db', hok, hreindexed⟩ := reconcile_ok barePath hcanonical fts db driveId
      hkeyed (prefersCanonical canonicalPath versions files)
    unfold mergeIndex
    rw [if_neg hdeleted]
    dsimp only
    rw [hok]
    exact ⟨_, db', rfl, hreindexed⟩

end AgentFs.PathNormalization

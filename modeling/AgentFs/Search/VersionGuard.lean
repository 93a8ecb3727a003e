import AgentFs.Search.Law

/-!
# Jobs and versions

A job reads the version of its file when it starts and waits for the chunker, the provider or
the renderer before it writes.  In every run it changes the index only at a moment when the
live file still has that version, and a job that fails leaves the chunks, the vectors and the
documents as they were.
-/

namespace AgentFs

open Async

/-- The step leaves the chunks, the vectors and the documents. -/
abbrev KeepsTables (w w' : SearchWorld) : Prop :=
  w'.index.toIndexTables = w.index.toIndexTables

@[simp]
theorem setTextStatus_tables (driveId path : Text) (status : Option EmbeddingStatus)
    (w : SearchWorld) :
  (setTextStatus driveId path status w).index.toIndexTables = w.index.toIndexTables
  := by
  unfold setTextStatus
  split <;> rfl

@[simp]
theorem setImageStatus_tables (driveId path : Text) (status : Option ImageEmbeddingStatus)
    (w : SearchWorld) :
  (setImageStatus driveId path status w).index.toIndexTables = w.index.toIndexTables
  := by
  unfold setImageStatus
  split <;> rfl

/-- A transaction that replaces chunks leaves the files. -/
theorem replaceChunks_world {driveId path : Text} {kind : ChunkDeleteScope} {fails : Nat → Bool}
    {rows : List (ChunkRow × Bytes)} {w w' : SearchWorld}
    (h : replaceChunks driveId path kind fails rows w = some w') :
  w'.world = w.world
  := by
  unfold replaceChunks at h
  dsimp only at h
  split at h
  · cases h
  · obtain ⟨t, -, rfl⟩ := Option.map_eq_some_iff.mp h
    rfl

/-! ### One step -/

/-- What a step of a job for `version` may do: it leaves the files; it leaves the whole index
when the live file has another version, or there is none; and it leaves the chunks, the
vectors and the documents when it does not replace them. -/
structure Guarded (driveId path : Text) (version : Option Text) (replaces : Prop)
    (w w' : SearchWorld) : Prop where
  files : w'.world = w.world
  stale : readCurrentVersion w.world.db driveId path ≠ some version → w'.index = w.index
  keeps : ¬ replaces → KeepsTables w w'

/-- A step of a job that changes nothing. -/
theorem Guarded.refl (driveId path : Text) (version : Option Text) (replaces : Prop)
    (w : SearchWorld) :
  Guarded driveId path version replaces w w
  := ⟨rfl, fun _ => rfl, fun _ => rfl⟩

/-- A step of a job whose file has the version of the job. -/
theorem Guarded.current {driveId path : Text} {version : Option Text} {replaces : Prop}
    {w w' : SearchWorld} (hcurrent : readCurrentVersion w.world.db driveId path = some version)
    (hfiles : w'.world = w.world) (hkeeps : ¬ replaces → KeepsTables w w') :
  Guarded driveId path version replaces w w'
  := ⟨hfiles, fun hstale => absurd hcurrent hstale, hkeeps⟩

/-- The step of a text job replaces the chunks. -/
def TextJobStep.Replaces (step : TextJobStep) : Prop :=
  ∃ status, step = .replaced status

theorem TextJobTurn.guarded {params : EmbeddingParams} {step : TextJobStep} {w w' : SearchWorld}
    (turn : TextJobTurn params w step w') :
  Guarded params.driveId params.path params.version step.Replaces w w'
  := by
  cases turn with
  | waiting => exact .refl _ _ _ _ _
  | superseded stale => exact .refl _ _ _ _ _
  | failed current => exact .current current (by simp) (by simp [KeepsTables])
  | replaced current fails rows status kind settled tx =>
      apply Guarded.current current
      · rw [setTextStatus_world, replaceChunks_world tx]
        split <;> rfl
      · intro hne
        exact absurd ⟨status, rfl⟩ hne

theorem ImageJobTurn.guarded {row : ImageRow} {step : ImageJobStep} {w w' : SearchWorld}
    (turn : ImageJobTurn row w step w') :
  Guarded row.driveId row.path row.version (step = .replaced) w w'
  := by
  cases turn with
  | waiting => exact .refl _ _ _ _ _
  | superseded stale => exact .refl _ _ _ _ _
  | stopped => exact .refl _ _ _ _ _
  | ineligible current => exact .current current (by simp) (by simp [KeepsTables])
  | failed current => exact .current current (by simp) (by simp [KeepsTables])
  | replaced current fails rows kind tx =>
      apply Guarded.current current
      · rw [setImageStatus_world, replaceChunks_world tx]
      · intro hne
        exact absurd rfl hne

/-- What a step of the search system does when it is one of a job. -/
def JobGuarded (w : SearchWorld) : SearchEvent × SearchWorld → Prop
  | (.textJob params step, w') =>
      Guarded params.driveId params.path params.version step.Replaces w w'
  | (.imageJob row step, w') =>
      Guarded row.driveId row.path row.version (step = .replaced) w w'
  | _ => True

theorem SearchStep.jobGuarded {sha256 : Bytes → Text} {J : SearchPerms}
    {x : SearchInput} {w w' : SearchWorld} {ev : SearchEvent}
    (step : SearchStep sha256 J x w ev w') :
  JobGuarded w (ev, w')
  := by
  cases step with
  | textJob params turn => exact turn.guarded
  | released job turn ends => exact ⟨turn.guarded.files, turn.guarded.stale, turn.guarded.keeps⟩
  | cleared params current =>
      apply Guarded.current current
      · rw [clearStatuses_world]
        rfl
      · intro hne
        exact absurd ⟨none, rfl⟩ hne
  | imageJob row turn => exact turn.guarded
  | _ => trivial

/-! ### Inserts that fail -/

/-- An insert that throws makes the inserts of a transaction throw. -/
theorem insertChunks_of_fails {fails : Nat → Bool} {n k : Nat} {rows : List (ChunkRow × Bytes)}
    {t : IndexTables} (hfails : fails k = true) (hn : n ≤ k) (hk : k < n + 2 * rows.length) :
  insertChunks fails n rows t = none
  := by
  induction rows generalizing n t with
  | nil =>
      dsimp only [List.length_nil] at hk
      omega
  | cons row rows ih =>
      unfold insertChunks
      split
      · rfl
      · rename_i hok
        apply ih
        · have hne : n ≠ k := fun he => hok (.inl (he ▸ hfails))
          have hne' : n + 1 ≠ k := fun he => hok (.inr (he ▸ hfails))
          omega
        · rw [List.length_cons] at hk
          omega

/-- A statement that throws makes the transaction throw: statement 0 is one of those around
the inserts, the others are the inserts. -/
theorem replaceChunks_of_fails {driveId path : Text} {kind : ChunkDeleteScope}
    {fails : Nat → Bool} {rows : List (ChunkRow × Bytes)} {w : SearchWorld} {k : Nat}
    (hfails : fails k = true) (hk : k ≤ 2 * rows.length) :
  replaceChunks driveId path kind fails rows w = none
  := by
  unfold replaceChunks
  dsimp only
  split
  · rfl
  · rename_i h0
    have hpos : k ≠ 0 := fun he => h0 (he ▸ hfails)
    rw [insertChunks_of_fails hfails (by omega) (by omega)]
    rfl

theorem failTextJob_keeps (params : EmbeddingParams) (w : SearchWorld) :
  KeepsTables w (failTextJob params w).2.2
  := by
  unfold failTextJob
  split
  · exact setTextStatus_tables _ _ _ _
  · rfl

theorem failImage_keeps (row : ImageRow) (w : SearchWorld) :
  KeepsTables w (failImage row w).2
  := by
  unfold failImage
  split
  · exact setImageStatus_tables _ _ _ _
  · rfl

/-- A text job whose transaction throws leaves the tables. -/
theorem replaceTextChunks_of_fails (params : EmbeddingParams) (skipped : Bool)
    (chunks : List Chunk) (vectors : List Bytes) {fails : Nat → Bool} {k : Nat}
    (hfails : fails k = true) (hk : k ≤ 2 * (params.chunkRows chunks vectors).length)
    (w : SearchWorld) :
  KeepsTables w (replaceTextChunks params skipped chunks vectors fails w).2.2
  := by
  unfold replaceTextChunks
  split
  · dsimp only
    rw [replaceChunks_of_fails hfails hk]
    exact failTextJob_keeps params w
  · rfl

/-- An image job whose transaction throws leaves the tables. -/
theorem finishImage_of_fails (row : ImageRow) {x : SearchInput}
    {parts : List (Option Nat × Bytes)} (hparts : x.parts = some parts) {k : Nat}
    (hfails : x.insertFails k = true) (hk : k ≤ 2 * parts.length) (w : SearchWorld) :
  KeepsTables w (finishImage row w x).2
  := by
  unfold finishImage
  rw [hparts]
  dsimp only
  split
  · rw [replaceChunks_of_fails hfails (by simpa [ImageRow.chunkRows] using hk)]
    exact failImage_keeps row w
  · rfl

/-! ### Runs -/

/-- In every run every step of a job leaves the files, leaves the index unless the live file has
the version of the job, and leaves the chunks, the vectors and the documents unless it replaces
them; and a job whose insert throws does not replace them. -/
theorem jobs_guarded (sha256 : Bytes → Text) (stripBase64 : Text → Text) :
  (∀ (w : SearchWorld) (requests : List SearchRequest) (sched : List (Nat × SearchInput)),
    (searchPool sha256 stripBase64 w requests).Admits
      (fun cf _ r => JobGuarded cf.state r) sched) ∧
  (∀ (params : EmbeddingParams) (skipped : Bool) (chunks : List Chunk) (vectors : List Bytes)
      (fails : Nat → Bool) (w : SearchWorld),
    (∃ k ≤ 2 * (params.chunkRows chunks vectors).length, fails k = true) →
      KeepsTables w (replaceTextChunks params skipped chunks vectors fails w).2.2) ∧
  ∀ (row : ImageRow) (x : SearchInput) (parts : List (Option Nat × Bytes)) (w : SearchWorld),
    x.parts = some parts → (∃ k ≤ 2 * parts.length, x.insertFails k = true) →
      KeepsTables w (finishImage row w x).2
  := by
  refine ⟨?_, ?_, ?_⟩
  · intro w requests sched
    have hlaw : (searchPool sha256 stripBase64 w requests).Admits
        (fun cf _ r => SearchLawful sha256 .all cf.state r) sched :=
      searchPool_steps stripBase64 w (fun r _ => r.permitted_all) sched
    apply hlaw.mono
    rintro cf i r ⟨x, hx⟩
    exact hx.jobGuarded
  · rintro params skipped chunks vectors fails w ⟨k, hk, hfails⟩
    exact replaceTextChunks_of_fails params skipped chunks vectors hfails hk w
  · rintro row x parts w hparts ⟨k, hk, hfails⟩
    exact finishImage_of_fails row hparts hfails hk w

end AgentFs

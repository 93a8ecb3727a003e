import AgentFs.Ops.Order

/-!
# The version history

In every run of the file operations, whatever their order, the versions of a path are
numbered from 1 without gap or repeat and the metadata of the path points to the last of
them.  A request picks its number before the transaction that records it, so the number
may be taken by then; the UNIQUE index turns that into a failed transaction.
-/

namespace AgentFs

open Async

/-! ### The head of a path -/

section

variable {db db' : Db} {driveId path : Text} {row : FileVersionRow}

theorem versionsOf_congr (h : db'.fileVersions = db.fileVersions) (driveId path : Text) :
  db'.versionsOf driveId path = db.versionsOf driveId path
  := by
  unfold Db.versionsOf
  rw [h]

theorem filesOf_congr (h : db'.files = db.files) (driveId path : Text) :
  db'.filesOf driveId path = db.filesOf driveId path
  := by
  unfold Db.filesOf
  rw [h]

theorem getNextVersion_congr (h : db'.fileVersions = db.fileVersions) (driveId path : Text) :
  getNextVersion db' driveId path = getNextVersion db driveId path
  := by
  unfold getNextVersion Db.versionNumbers
  rw [versionsOf_congr h]

theorem getHeadVersionRow_congr (h : db'.fileVersions = db.fileVersions) (driveId path : Text) :
  getHeadVersionRow db' driveId path = getHeadVersionRow db driveId path
  := by
  unfold getHeadVersionRow
  rw [versionsOf_congr h]

theorem mem_of_getHeadVersionRow (h : getHeadVersionRow db driveId path = some row) :
  row ∈ db.versionsOf driveId path
  := List.argmax_mem h

theorem version_le_head (h : getHeadVersionRow db driveId path = some row)
    {r : FileVersionRow} (hr : r ∈ db.versionsOf driveId path) :
  r.version ≤ row.version
  := List.le_of_mem_argmax hr h

theorem version_lt_getNextVersion {r : FileVersionRow} (hr : r ∈ db.versionsOf driveId path) :
  r.version < getNextVersion db driveId path
  := by
  have hmem : r.version ∈ db.versionNumbers driveId path := List.mem_map.mpr ⟨r, hr, rfl⟩
  unfold getNextVersion
  cases hmax : (db.versionNumbers driveId path).max? with
  | none =>
      rw [List.max?_eq_none_iff.mp hmax] at hmem
      cases hmem
  | some m =>
      have hle := (List.max?_eq_some_iff.mp hmax).2 _ hmem
      simp only [Option.getD_some]
      omega

/-- The next version is one above the head. -/
theorem getNextVersion_eq (db : Db) (driveId path : Text) :
  getNextVersion db driveId path = currentVersion db driveId path + 1
  := by
  unfold currentVersion
  cases hhead : getHeadVersionRow db driveId path with
  | none =>
      have hnil : db.versionsOf driveId path = [] := List.argmax_eq_none.mp hhead
      simp [getNextVersion, Db.versionNumbers, hnil]
  | some row =>
      have hmax : (db.versionNumbers driveId path).max? = some row.version := by
        rw [List.max?_eq_some_iff]
        constructor
        · exact List.mem_map.mpr ⟨row, mem_of_getHeadVersionRow hhead, rfl⟩
        · intro v hv
          obtain ⟨r, hr, rfl⟩ := List.mem_map.mp hv
          exact version_le_head hhead hr
      simp [getNextVersion, hmax]

/-- Recording a row appends it to the versions of its path. -/
theorem Records.versionsOf_self (h : Records db row db') :
  db'.versionsOf row.driveId row.path = db.versionsOf row.driveId row.path ++ [row]
  := by
  unfold Db.versionsOf
  rw [h.versions]
  simp

/-- Recording a row leaves the versions of the other paths. -/
theorem Records.versionsOf_other (h : Records db row db')
    (hne : ¬ (path = row.path ∧ driveId = row.driveId)) :
  db'.versionsOf driveId path = db.versionsOf driveId path
  := by
  have hne' : ¬ (row.path = path ∧ row.driveId = driveId) :=
    fun hrow => hne ⟨hrow.1.symm, hrow.2.symm⟩
  unfold Db.versionsOf
  rw [h.versions]
  simp [hne']

/-- A recorded row whose number is the next one is the new head. -/
theorem Records.head_self (h : Records db row db')
    (hnext : getNextVersion db row.driveId row.path ≤ row.version) :
  getHeadVersionRow db' row.driveId row.path = some row
  := by
  unfold getHeadVersionRow
  rw [h.versionsOf_self, List.argmax_concat]
  cases hhead : (db.versionsOf row.driveId row.path).argmax (·.version) with
  | none => rfl
  | some r =>
      have hlt := version_lt_getNextVersion (List.argmax_mem hhead)
      exact if_pos (by omega)

theorem Records.head_other (h : Records db row db')
    (hne : ¬ (path = row.path ∧ driveId = row.driveId)) :
  getHeadVersionRow db' driveId path = getHeadVersionRow db driveId path
  := by
  unfold getHeadVersionRow
  rw [h.versionsOf_other hne]

/-- Recording a row lowers the next number of no path. -/
theorem Records.getNextVersion_le (h : Records db row db') (driveId path : Text) :
  getNextVersion db driveId path ≤ getNextVersion db' driveId path
  := by
  by_cases hkey : path = row.path ∧ driveId = row.driveId
  · obtain ⟨rfl, rfl⟩ := hkey
    rw [getNextVersion_eq db]
    unfold currentVersion
    cases hhead : getHeadVersionRow db row.driveId row.path with
    | none =>
        simp [getNextVersion]
    | some r =>
        have hmem : r ∈ db'.versionsOf row.driveId row.path := by
          rw [h.versionsOf_self]
          exact List.mem_append_left _ (mem_of_getHeadVersionRow hhead)
        exact version_lt_getNextVersion hmem
  · unfold getNextVersion Db.versionNumbers
    rw [h.versionsOf_other hkey]

end

/-! ### The invariant -/

/-- The history of a path with `n` versions: they are numbered `1..n`, and if there is
one, the metadata of the path is one row that points to version `n` and is marked deleted
exactly when that version is a delete. -/
structure VersionHistory (db : Db) (driveId path : Text) (n : Nat) : Prop where
  /-- The primary key of `files`. -/
  files_le : (db.filesOf driveId path).length ≤ 1
  numbers : (db.versionNumbers driveId path).Perm (List.range' 1 n)
  current : 0 < n → ∃ f row, db.filesOf driveId path = [f] ∧
    row ∈ db.versionsOf driveId path ∧ row.version = n ∧
    f.currentVersionId = some (toString n).toList ∧
    (f.isDeleted = true ↔ row.operation = .delete)

/-- Every path has a history. -/
def History (db : Db) : Prop :=
  ∀ driveId path, ∃ n, VersionHistory db driveId path n

/-- The invariant of a run: every path has a history, and the number a request has picked
and not used yet is not above the next one. -/
structure HistoryInv (cf : Config) : Prop where
  history : History cf.state.db
  picked : ∀ i driveId path version,
    (cf.own i).head? = some (.allocate driveId path version) →
      1 ≤ version ∧ version ≤ getNextVersion cf.state.db driveId path

theorem VersionHistory.getNextVersion {db : Db} {driveId path : Text} {n : Nat}
    (h : VersionHistory db driveId path n) :
  AgentFs.getNextVersion db driveId path = n + 1
  := by
  unfold AgentFs.getNextVersion
  cases n with
  | zero =>
      rw [List.Perm.eq_nil h.numbers]
      rfl
  | succ n =>
      have hmax : (db.versionNumbers driveId path).max? = some (n + 1) := by
        rw [List.max?_eq_some_iff]
        constructor
        · rw [h.numbers.mem_iff]
          simp [List.mem_range'_1]
        · intro v hv
          rw [h.numbers.mem_iff, List.mem_range'_1] at hv
          omega
      simp [hmax]

theorem VersionHistory.congr {db db' : Db} (hversions : db'.fileVersions = db.fileVersions)
    (hfiles : db'.files = db.files) {driveId path : Text} {n : Nat}
    (h : VersionHistory db driveId path n) :
  VersionHistory db' driveId path n
  := by
  have hv := versionsOf_congr hversions driveId path
  have hf := filesOf_congr hfiles driveId path
  refine ⟨?_, ?_, ?_⟩
  · rw [hf]
    exact h.files_le
  · unfold Db.versionNumbers
    rw [hv]
    exact h.numbers
  · rw [hf, hv]
    exact h.current

/-- A number that is not above the next one and is not taken is the next one. -/
theorem Records.version_eq {db db' : Db} {row : FileVersionRow} (hrec : Records db row db')
    (hhist : History db) (hpos : 1 ≤ row.version)
    (hle : row.version ≤ getNextVersion db row.driveId row.path) :
  row.version = getNextVersion db row.driveId row.path
  := by
  obtain ⟨n, hn⟩ := hhist row.driveId row.path
  rw [hn.getNextVersion] at hle ⊢
  by_contra hne
  have hmem : row.version ∈ db.versionNumbers row.driveId row.path := by
    rw [hn.numbers.mem_iff, List.mem_range'_1]
    omega
  obtain ⟨r, hr, hversion⟩ := List.mem_map.mp hmem
  obtain ⟨hmem, hpath, hdrive⟩ := Db.mem_versionsOf.mp hr
  exact hrec.fresh r hmem ⟨hpath, hdrive, hversion⟩

/-- Recording the next version keeps every history. -/
theorem History.records {db db' : Db} {row : FileVersionRow} (h : History db)
    (hrec : Records db row db') (hversion : row.version = getNextVersion db row.driveId row.path) :
  History db'
  := by
  intro driveId path
  by_cases hkey : path = row.path ∧ driveId = row.driveId
  · obtain ⟨rfl, rfl⟩ := hkey
    obtain ⟨n, hn⟩ := h row.driveId row.path
    have hn1 : row.version = n + 1 := by
      rw [hversion, hn.getNextVersion]
    have hlen : (db'.filesOf row.driveId row.path).length = 1 := by
      rw [hrec.files_length]
      exact max_eq_left hn.files_le
    obtain ⟨f, hf⟩ := List.length_eq_one_iff.mp hlen
    refine ⟨n + 1, by omega, ?_, fun _ => ?_⟩
    · unfold Db.versionNumbers
      rw [hrec.versionsOf_self, List.map_append, List.range'_concat]
      apply List.Perm.append hn.numbers
      simp [hn1, Nat.add_comm]
    · refine ⟨f, row, hf, ?_, hn1, ?_⟩
      · rw [hrec.versionsOf_self]
        simp
      · have hrow := hrec.files_row f (by simp [hf])
        rw [← hn1]
        refine ⟨hrow.1, ?_⟩
        rw [hrow.2]
        simp
  · obtain ⟨n, hn⟩ := h driveId path
    have hv := hrec.versionsOf_other hkey
    have hf := hrec.files_other driveId path hkey
    refine ⟨n, ?_, ?_, ?_⟩
    · rw [hf]
      exact hn.files_le
    · unfold Db.versionNumbers
      rw [hv]
      exact hn.numbers
    · rw [hf, hv]
      exact hn.current

/-! ### Steps and runs -/

section

variable {sha256 : Bytes → Text} {requests : List (OpContext × Request)} {cf : Config}
  {i : Nat} {r : Event × World}

/-- No step lowers the next number of a path. -/
theorem StepOf.getNextVersion_le (h : StepOf sha256 requests cf i r) (driveId path : Text) :
  getNextVersion cf.state.db driveId path ≤ getNextVersion r.2.db driveId path
  := by
  obtain ⟨row, -, hrec⟩ | ⟨-, hversions, -⟩ := h.lawful.tables_cases
  · exact hrec.getNextVersion_le driveId path
  · exact (getNextVersion_congr hversions driveId path).ge

/-- The row of a commit has the next version of its path. -/
theorem StepOf.commit_version (h : StepOf sha256 requests cf i r) (hinv : HistoryInv cf)
    {row : FileVersionRow} (hrow : r.1 = .commit row) :
  row.version = getNextVersion cf.state.db row.driveId row.path
  := by
  have hrec : Records cf.state.db row r.2.db := by
    have htables := h.lawful.tables
    rw [hrow] at htables
    exact htables
  obtain ⟨ctx, request, -, hobeys⟩ := h.obeys
  rw [hrow] at hobeys
  obtain ⟨hpos, hle⟩ := hinv.picked i _ _ _ hobeys.1
  exact hrec.version_eq hinv.history hpos hle

/-- Every step keeps the invariant. -/
theorem HistoryInv.step (hinv : HistoryInv cf) (h : StepOf sha256 requests cf i r) :
  HistoryInv (cf.push i r)
  := by
  constructor
  · obtain ⟨row, hrow, hrec⟩ | ⟨-, hversions, hfiles⟩ := h.lawful.tables_cases
    · exact hinv.history.records hrec (h.commit_version hinv hrow)
    · intro driveId path
      obtain ⟨n, hn⟩ := hinv.history driveId path
      exact ⟨n, hn.congr hversions hfiles⟩
  · intro j driveId path version hhead
    have hmono := h.getNextVersion_le driveId path
    by_cases hj : i = j
    · subst hj
      rw [Conf.own_push_self, List.head?_cons, Option.some.injEq] at hhead
      have hreads := h.lawful.reads
      rw [hhead] at hreads
      have hversion : version = getNextVersion cf.state.db driveId path := hreads
      rw [hversion]
      refine ⟨?_, hmono⟩
      rw [getNextVersion_eq]
      omega
    · rw [Conf.own_push_of_ne hj] at hhead
      obtain ⟨hpos, hle⟩ := hinv.picked j driveId path version hhead
      exact ⟨hpos, hle.trans hmono⟩

/-- The invariant holds before every step of a run, and after it. -/
theorem history_run {w : World} (hw : History w.db) (requests : List (OpContext × Request))
    (sched : List (Nat × Input)) :
  (Server.start sha256 w requests).Admits (fun cf _ _ => HistoryInv cf) sched ∧
    HistoryInv ((Server.start sha256 w requests).run sched).conf
  := by
  apply (start_steps sha256 w requests sched).inv
  · intro cf i r hstep hinv
    exact hinv.step hstep
  · exact ⟨hw, fun i driveId path version hhead => by cases hhead⟩

end

/-- In every run of the file operations, in any order of their segments, the versions of
every path are numbered `1..n`, its metadata points to version `n`, and a transaction of
`createVersion` that throws leaves both tables as they were. -/
theorem versions_contiguous (sha256 : Bytes → Text) (w : World) (hw : History w.db)
    (requests : List (OpContext × Request)) (sched : List (Nat × Input)) :
  (∀ driveId path, ∃ n, VersionHistory
      ((Server.start sha256 w requests).run sched).conf.state.db driveId path n) ∧
    (Server.start sha256 w requests).Admits (fun cf _ r => ∀ driveId path version e,
      r.1 = .abort driveId path version e →
        r.2.db.fileVersions = cf.state.db.fileVersions ∧ r.2.db.files = cf.state.db.files) sched
  := by
  constructor
  · exact (history_run hw requests sched).2.history
  · apply (start_steps sha256 w requests sched).mono
    intro cf i r hstep driveId path version e habort
    have htables := hstep.lawful.tables
    rw [habort] at htables
    exact htables

theorem history_empty :
  History Db.empty
  := by
  intro driveId path
  refine ⟨0, ?_, ?_, ?_⟩
  · simp [Db.filesOf, Db.empty]
  · simp [Db.versionNumbers, Db.versionsOf, Db.empty]
  · intro hpos
    cases hpos

/-- Two writes to `/f` that pick the same number: the second transaction throws. -/
def sampleClash : List (Nat × Input) :=
  [0, 0, 0, 1, 1, 1, 0, 1, 0, 1].map (·, sampleInput)

theorem versions_contiguous_sampleClash :
  ((Server.start sampleHash World.empty
      [sampleWrite [97] none, sampleWrite [98] none]).run sampleClash).conf.own 1 =
    [.abort "drive".toList "/f".toList 1 (.unique .fileVersions),
      .allocate "drive".toList "/f".toList 1,
      .storeObject ["org".toList, "drives".toList, "drive".toList, "f".toList]
        ⟨[98], some "application/octet-stream".toList⟩,
      .storeBlob ["_afs-blobs".toList, "sha256".toList, sampleHash [98]] ⟨[98], none⟩,
      .probe ["_afs-blobs".toList, "sha256".toList, sampleHash [98]] false] ∧
    ∃ n, VersionHistory ((Server.start sampleHash World.empty
      [sampleWrite [97] none, sampleWrite [98] none]).run sampleClash).conf.state.db
      "drive".toList "/f".toList n
  := by
  constructor
  · decide +kernel
  · exact (versions_contiguous sampleHash World.empty history_empty _ sampleClash).1 _ _

end AgentFs

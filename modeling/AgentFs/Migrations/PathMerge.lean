import AgentFs.Migrations.Reconcile

/-!
# Merging split histories

`mergeSplitPath` runs without breaking an index, and leaves the two histories of a path as
one: its versions carry the numbers `1..n` in the order in which they were written, and
nothing but their path and number has changed.
-/

namespace AgentFs.PathNormalization

open Tabular

/-! ### Renumbering -/

instance : Std.Total Precedes where
  total a b := by
    unfold Precedes
    omega

instance : IsTrans FileVersionRow Precedes where
  trans a b c hab hbc := by
    unfold Precedes at *
    omega

/-- A row of a history, at its place in the merged history. -/
def placed (canonicalPath : Text) (versions : List FileVersionRow) (r : FileVersionRow) :
    FileVersionRow :=
  match versions.findIdx? (fun v => v.id = r.id) with
  | some index => { r with path := canonicalPath, version := index + 1 }
  | none => r

section

variable {canonicalPath : Text} {versions rows : List FileVersionRow}

theorem placed_of_not_mem {r : FileVersionRow} (h : r.id ∉ versions.map FileVersionRow.id) :
  placed canonicalPath versions r = r
  := by
  have hfind : versions.findIdx? (fun v => v.id = r.id) = none := by
    rw [List.findIdx?_eq_none_iff]
    intro v hv
    rw [decide_eq_false_iff_not]
    intro heq
    apply h
    rw [List.mem_map]
    exact ⟨v, hv, heq⟩
  unfold placed
  rw [hfind]

theorem placed_of_getElem? (hids : Keyed FileVersionRow.id versions) {r v : FileVersionRow}
    {index : Nat} (hv : versions[index]? = some v) (hr : r.id = v.id) :
  placed canonicalPath versions r
    = { r with path := canonicalPath, version := index + 1 }
  := by
  have hfind : versions.findIdx? (fun v => v.id = r.id) = some index := by
    obtain ⟨hlt, hget⟩ := List.getElem?_eq_some_iff.mp hv
    rw [List.findIdx?_eq_some_iff_getElem]
    refine ⟨hlt, ?_, ?_⟩
    · rw [hget, hr]
      exact decide_eq_true rfl
    · intro j hj heq
      have hsame := of_decide_eq_true heq
      rw [hr, ← hget] at hsame
      have hlookup : (versions.map FileVersionRow.id)[j]?
          = (versions.map FileVersionRow.id)[index]? := by
        rw [List.getElem?_map, List.getElem?_map, List.getElem?_eq_getElem hlt,
          List.getElem?_eq_getElem (hj.trans hlt), Option.map_some, Option.map_some, hsame]
      have hindex := (List.getElem?_inj (by rw [List.length_map]; omega) hids).mp hlookup
      omega
  unfold placed
  rw [hfind]

@[simp]
theorem placed_id (r : FileVersionRow) :
  (placed canonicalPath versions r).id = r.id
  := by
  unfold placed
  split <;> rfl

@[simp]
theorem placed_createdAt (r : FileVersionRow) :
  (placed canonicalPath versions r).createdAt = r.createdAt
  := by
  unfold placed
  split <;> rfl

/-- Only the path and the number of a row change. -/
theorem placed_frame (r : FileVersionRow) :
  placed canonicalPath versions r = { r with
    path := (placed canonicalPath versions r).path
    version := (placed canonicalPath versions r).version }
  := by
  unfold placed
  split <;> rfl

theorem getElem?_toTemporary (canonicalPath : Text) (versions : List FileVersionRow)
    (base index : Nat) :
  (toTemporary canonicalPath base versions)[index]? =
    versions[index]?.map (fun row => ⟨row.id, fun r =>
      { r with path := canonicalPath, version := base + index + 1 }⟩)
  := by
  unfold toTemporary
  rw [List.getElem?_map, List.getElem?_zipIdx, Option.map_map]
  simp [Function.comp_def]

theorem getElem?_toFinal (versions : List FileVersionRow) (index : Nat) :
  (toFinal versions)[index]? =
    versions[index]?.map (fun row => ⟨row.id, fun r => { r with version := index + 1 }⟩)
  := by
  unfold toFinal
  rw [List.getElem?_map, List.getElem?_zipIdx, Option.map_map]
  simp [Function.comp_def]

@[simp]
theorem map_id_toTemporary (base : Nat) :
  (toTemporary canonicalPath base versions).map RowUpdate.id
    = versions.map FileVersionRow.id
  := by
  unfold toTemporary
  rw [List.map_map]
  conv_rhs => rw [← List.zipIdx_map_fst 0 versions, List.map_map]
  rfl

@[simp]
theorem map_id_toFinal :
  (toFinal versions).map RowUpdate.id = versions.map FileVersionRow.id
  := by
  unfold toFinal
  rw [List.map_map]
  conv_rhs => rw [← List.zipIdx_map_fst 0 versions, List.map_map]
  rfl

/-- The two loops together put every row at its place. -/
theorem settled_toFinal_toTemporary (hids : Keyed FileVersionRow.id versions)
    (base : Nat) (r : FileVersionRow) :
  settled FileVersionRow.id (toFinal versions)
      (settled FileVersionRow.id (toTemporary canonicalPath base versions) r)
    = placed canonicalPath versions r
  := by
  by_cases h : r.id ∈ versions.map FileVersionRow.id
  · obtain ⟨v, hv, hid⟩ := List.mem_map.mp h
    obtain ⟨index, hindex⟩ := List.mem_iff_getElem?.mp hv
    have htemporary := getElem?_toTemporary canonicalPath versions base index
    have hfinal := getElem?_toFinal versions index
    rw [hindex, Option.map_some] at htemporary hfinal
    have hnodup := hids
    unfold Keyed at hnodup
    rw [settled_of_mem (by rwa [map_id_toTemporary]) (List.mem_of_getElem? htemporary) hid.symm]
    rw [settled_of_mem (by rwa [map_id_toFinal]) (List.mem_of_getElem? hfinal) (by exact hid.symm)]
    rw [placed_of_getElem? hids hindex hid.symm]
  · have hfirst : settled FileVersionRow.id (toTemporary canonicalPath base versions) r
        = r := settled_of_not_mem (by rwa [map_id_toTemporary])
    rw [hfirst, settled_of_not_mem (by rwa [map_id_toFinal]), placed_of_not_mem h]

/-! ### No collision -/

/-- The versions of a merge are the rows of the two spellings. -/
def Histories (driveId barePath canonicalPath : Text) (versions rows : List FileVersionRow) :
    Prop :=
  Keyed FileVersionRow.id versions ∧
    ∀ r, r ∈ versions ↔ r ∈ rows ∧ OfEither driveId barePath canonicalPath r

variable {driveId barePath : Text}

/-- No version has a number above the greatest one. -/
theorem version_le_maxOldVersion {v : FileVersionRow} (hv : v ∈ versions) :
  v.version ≤ maxOldVersion versions
  := by
  have hfold : ∀ (l : List FileVersionRow) (init : Nat),
      init ≤ l.foldl (fun max row => Nat.max max row.version) init ∧
        ∀ v ∈ l, v.version ≤ l.foldl (fun max row => Nat.max max row.version) init := by
    intro l
    induction l with
    | nil =>
        intro init
        exact ⟨le_refl _, fun v hv => absurd hv List.not_mem_nil⟩
    | cons w l ih =>
        intro init
        obtain ⟨hinit, hmem⟩ := ih (Nat.max init w.version)
        refine ⟨(Nat.le_max_left _ _).trans hinit, ?_⟩
        intro v hv
        rcases List.mem_cons.mp hv with rfl | hv
        · exact (Nat.le_max_right _ _).trans hinit
        · exact hmem v hv
  exact (hfold versions 0).2 v hv

/-- Above all old numbers every slot is free. -/
theorem clears_toTemporary (hids : Keyed FileVersionRow.id rows)
    (h : Histories driveId barePath canonicalPath versions rows) :
  Clears FileVersionRow.id versionKey
    (toTemporary canonicalPath (maxOldVersion versions) versions) rows
  := by
  have hrow : ∀ {k : Nat} {u : RowUpdate FileVersionRow Nat},
      (toTemporary canonicalPath (maxOldVersion versions) versions)[k]? = some u →
      ∀ r ∈ rows, r.id = u.id → r ∈ versions ∧
        versionKey (u.change r) = (canonicalPath, driveId, maxOldVersion versions + k + 1) := by
    intro k u hu r hr hid
    rw [getElem?_toTemporary, Option.map_eq_some_iff] at hu
    obtain ⟨v, hv, rfl⟩ := hu
    have hvmem := List.mem_of_getElem? hv
    have hvr : r = v := hids.eq_of_mem hr ((h.2 v).mp hvmem).1 hid
    subst hvr
    refine ⟨hvmem, ?_⟩
    unfold versionKey
    rw [((h.2 r).mp hvmem).2.1]
  constructor
  case nodup =>
    rw [map_id_toTemporary]
    exact h.1
  case ident_change =>
    intro u hu r
    unfold toTemporary at hu
    obtain ⟨e, _, rfl⟩ := List.mem_map.mp hu
    rfl
  case free =>
    intro k u hu r hr hid s hs hslot
    exfalso
    rw [(hrow hu r hr hid).2] at hslot
    unfold versionKey at hslot
    simp only [Prod.mk.injEq] at hslot
    have hsmem : s ∈ versions := (h.2 s).mpr ⟨hs, hslot.2.1, .inr hslot.1⟩
    have hle := version_le_maxOldVersion hsmem
    omega
  case distinct =>
    intro j k u v hjk hu hv r hr s hs hru hsv heq
    rw [(hrow hu r hr hru).2, (hrow hv s hs hsv).2] at heq
    simp only [Prod.mk.injEq] at heq
    omega

/-- Once every version has a temporary number, its final number is free: it is at most the
temporary number of a version that has been moved already. -/
theorem clears_toFinal (hids : Keyed FileVersionRow.id rows)
    (h : Histories driveId barePath canonicalPath versions rows) (base : Nat) :
  Clears FileVersionRow.id versionKey (toFinal versions)
    (rows.map (settled FileVersionRow.id (toTemporary canonicalPath base versions)))
  := by
  set moved := settled FileVersionRow.id (toTemporary canonicalPath base versions)
    with hmoved
  have hplace : ∀ {k : Nat} {v : FileVersionRow}, versions[k]? = some v →
      moved v = { v with path := canonicalPath, version := base + k + 1 } := by
    intro k v hv
    have htemporary := getElem?_toTemporary canonicalPath versions base k
    rw [hv, Option.map_some] at htemporary
    have hnodup := h.1
    unfold Keyed at hnodup
    exact settled_of_mem (by rwa [map_id_toTemporary]) (List.mem_of_getElem? htemporary) rfl
  have hstay : ∀ r, r.id ∉ versions.map FileVersionRow.id → moved r = r :=
    fun r hr => settled_of_not_mem (by rwa [map_id_toTemporary])
  have hkeep : ∀ r, (moved r).id = r.id := by
    intro r
    by_cases hr : r.id ∈ versions.map FileVersionRow.id
    · obtain ⟨v, hv, hid⟩ := List.mem_map.mp hr
      obtain ⟨k, hk⟩ := List.mem_iff_getElem?.mp hv
      have htemporary := getElem?_toTemporary canonicalPath versions base k
      rw [hk, Option.map_some] at htemporary
      have hnodup := h.1
      unfold Keyed at hnodup
      rw [hmoved, settled_of_mem (by rwa [map_id_toTemporary]) (List.mem_of_getElem? htemporary)
        hid.symm]
    · rw [hstay r hr]
  have hrow : ∀ {k : Nat} {u : RowUpdate FileVersionRow Nat},
      (toFinal versions)[k]? = some u → ∀ r ∈ rows.map moved, r.id = u.id →
        versionKey (u.change r) = (canonicalPath, driveId, k + 1) := by
    intro k u hu r hr hid
    rw [getElem?_toFinal, Option.map_eq_some_iff] at hu
    obtain ⟨v, hv, rfl⟩ := hu
    obtain ⟨s, hs, rfl⟩ := List.mem_map.mp hr
    have hvmem := List.mem_of_getElem? hv
    rw [hkeep] at hid
    have hvs : s = v := hids.eq_of_mem hs ((h.2 v).mp hvmem).1 hid
    subst hvs
    rw [hplace hv]
    unfold versionKey
    rw [← ((h.2 s).mp hvmem).2.1]
  constructor
  case nodup =>
    rw [map_id_toFinal]
    exact h.1
  case ident_change =>
    intro u hu r
    unfold toFinal at hu
    obtain ⟨e, _, rfl⟩ := List.mem_map.mp hu
    rfl
  case free =>
    intro k u hu r hr hid s hs hslot
    rw [hrow hu r hr hid] at hslot
    obtain ⟨t, ht, rfl⟩ := List.mem_map.mp hs
    by_cases htid : t.id ∈ versions.map FileVersionRow.id
    · obtain ⟨v, hv, hvt⟩ := List.mem_map.mp htid
      have htv : t = v := hids.eq_of_mem ht ((h.2 v).mp hv).1 hvt.symm
      subst htv
      obtain ⟨j, hj⟩ := List.mem_iff_getElem?.mp hv
      rw [hplace hj] at hslot
      unfold versionKey at hslot
      simp only [Prod.mk.injEq] at hslot
      have hfinal := getElem?_toFinal versions j
      rw [hj, Option.map_some] at hfinal
      exact ⟨j, by omega, _, hfinal, hkeep t⟩
    · exfalso
      rw [hstay t htid] at hslot
      unfold versionKey at hslot
      simp only [Prod.mk.injEq] at hslot
      apply htid
      rw [List.mem_map]
      exact ⟨t, (h.2 t).mpr ⟨ht, hslot.2.1, .inr hslot.1⟩, rfl⟩
  case distinct =>
    intro j k u v hjk hu hv r hr s hs hru hsv heq
    rw [hrow hu r hr hru, hrow hv s hs hsv] at heq
    simp only [Prod.mk.injEq] at heq
    omega

/-- No statement of the two loops breaks the index, and every version ends at its place. -/
theorem renumberVersions_eq (hids : Keyed FileVersionRow.id rows)
    (hslots : Keyed versionKey rows)
    (h : Histories driveId barePath canonicalPath versions rows) :
  renumberVersions canonicalPath versions rows = .ok (rows.map (placed canonicalPath versions)) ∧
    Keyed versionKey (rows.map (placed canonicalPath versions))
  := by
  obtain ⟨hfirst, hkeyed⟩ := updateRows_of_clears
    (e := (.unique .fileVersions : SqlError)) hids hslots (clears_toTemporary hids h)
  have hmovedIds : Keyed FileVersionRow.id (rows.map (settled FileVersionRow.id
      (toTemporary canonicalPath (maxOldVersion versions) versions))) := by
    apply hids.map
    intro r _
    exact settled_ident (clears_toTemporary hids h).ident_change r
  obtain ⟨hsecond, hdone⟩ := updateRows_of_clears
    (e := (.unique .fileVersions : SqlError)) hmovedIds hkeyed
    (clears_toFinal hids h (maxOldVersion versions))
  have hcompose : (rows.map (settled FileVersionRow.id
      (toTemporary canonicalPath (maxOldVersion versions) versions))).map
        (settled FileVersionRow.id (toFinal versions))
      = rows.map (placed canonicalPath versions) := by
    rw [List.map_map]
    apply List.map_congr_left
    intro r _
    exact settled_toFinal_toTemporary h.1 (maxOldVersion versions) r
  rw [hcompose] at hsecond hdone
  refine ⟨?_, hdone⟩
  unfold renumberVersions
  rw [hfirst]
  exact hsecond

end

/-! ### The rows of the two spellings -/

/-- The tables of a database, whose indexes hold. -/
structure Valid (db : PathTables) : Prop where
  versionIds : Keyed FileVersionRow.id db.fileVersions
  versionKeys : Keyed versionKey db.fileVersions
  fileKeys : Keyed fileKey db.files
  docKeys : Keyed docKey db.ftsDocs

variable {driveId barePath canonicalPath : Text} {db : PathTables}

theorem histories_readVersions (driveId barePath canonicalPath : Text)
    (hids : Keyed FileVersionRow.id db.fileVersions) :
  Histories driveId barePath canonicalPath (readVersions db driveId barePath canonicalPath)
    db.fileVersions
  := by
  have hperm := List.perm_insertionSort Precedes
    (db.fileVersions.filter (fun r => OfEither driveId barePath canonicalPath r))
  constructor
  · unfold Keyed readVersions
    rw [(hperm.map FileVersionRow.id).nodup_iff]
    exact hids.filter _
  · intro r
    unfold readVersions
    rw [List.mem_insertionSort, List.mem_filter, decide_eq_true_iff]

/-- A row stays a row of the two spellings, or of neither. -/
theorem ofEither_placed {versions rows : List FileVersionRow}
    (hids : Keyed FileVersionRow.id rows)
    (h : Histories driveId barePath canonicalPath versions rows) {r : FileVersionRow}
    (hr : r ∈ rows) :
  OfEither driveId barePath canonicalPath (placed canonicalPath versions r)
    ↔ OfEither driveId barePath canonicalPath r
  := by
  by_cases hmem : r.id ∈ versions.map FileVersionRow.id
  · obtain ⟨v, hv, hid⟩ := List.mem_map.mp hmem
    have hrv : r = v := hids.eq_of_mem hr ((h.2 v).mp hv).1 hid.symm
    subst hrv
    obtain ⟨index, hindex⟩ := List.mem_iff_getElem?.mp hv
    rw [placed_of_getElem? h.1 hindex rfl]
    have hold := ((h.2 r).mp hv).2
    exact ⟨fun _ => hold, fun _ => ⟨hold.1, .inr rfl⟩⟩
  · rw [placed_of_not_mem hmem]

/-- The merged history: the versions of both spellings in their order, with the numbers
`1..n`. -/
theorem readVersions_placed (hids : Keyed FileVersionRow.id db.fileVersions) {db' : PathTables}
    (hdb' : db'.fileVersions = db.fileVersions.map
      (placed canonicalPath (readVersions db driveId barePath canonicalPath))) :
  readVersions db' driveId barePath canonicalPath =
    (readVersions db driveId barePath canonicalPath).mapIdx
      (fun i r => { r with path := canonicalPath, version := i + 1 })
  := by
  have h : Histories driveId barePath canonicalPath
      (readVersions db driveId barePath canonicalPath) db.fileVersions :=
    histories_readVersions driveId barePath canonicalPath hids
  set versions := readVersions db driveId barePath canonicalPath with hversions
  have hfilter : db'.fileVersions.filter (fun r => OfEither driveId barePath canonicalPath r)
      = (db.fileVersions.filter (fun r => OfEither driveId barePath canonicalPath r)).map
        (placed canonicalPath versions) := by
    rw [hdb', List.filter_map]
    congr 1
    apply List.filter_congr
    intro r hr
    exact decide_eq_decide.mpr (ofEither_placed hids h hr)
  have hmap : readVersions db' driveId barePath canonicalPath
      = versions.map (placed canonicalPath versions) := by
    rw [hversions]
    unfold readVersions at *
    rw [hfilter]
    symm
    apply List.map_insertionSort
    intro a _ b _
    unfold Precedes
    simp only [placed_id, placed_createdAt]
  rw [hmap]
  apply List.ext_getElem?
  intro i
  rw [List.getElem?_map, List.getElem?_mapIdx]
  cases hi : versions[i]? with
  | none => rfl
  | some r => rw [Option.map_some, Option.map_some, placed_of_getElem? h.1 hi rfl]

/-- The rows of other paths stay as they are. -/
theorem filter_map_placed {versions rows : List FileVersionRow}
    (hids : Keyed FileVersionRow.id rows)
    (h : Histories driveId barePath canonicalPath versions rows) :
  (rows.map (placed canonicalPath versions)).filter
      (fun r => ¬ OfEither driveId barePath canonicalPath r)
    = rows.filter (fun r => ¬ OfEither driveId barePath canonicalPath r)
  := by
  rw [List.filter_map]
  have hcongr : rows.filter ((fun r => decide (¬ OfEither driveId barePath canonicalPath r)) ∘
        placed canonicalPath versions)
      = rows.filter (fun r => ¬ OfEither driveId barePath canonicalPath r) := by
    apply List.filter_congr
    intro r hr
    exact decide_eq_decide.mpr (not_congr (ofEither_placed hids h hr))
  rw [hcongr]
  have hstay : ∀ r ∈ rows.filter (fun r => ¬ OfEither driveId barePath canonicalPath r),
      placed canonicalPath versions r = r := by
    intro r hr
    rw [List.mem_filter, decide_eq_true_iff] at hr
    apply placed_of_not_mem
    intro hmem
    obtain ⟨v, hv, hid⟩ := List.mem_map.mp hmem
    have hvrow := (h.2 v).mp hv
    rw [hids.eq_of_mem hr.1 hvrow.1 hid.symm] at hr
    exact hr.2 hvrow.2
  rw [List.map_congr_left hstay]
  exact List.map_id' _

/-- Two versions of one spelling keep their order, when the later one has the greater id and
was not created earlier. -/
theorem placed_order (hids : Keyed FileVersionRow.id db.fileVersions) {r s : FileVersionRow}
    (hr : r ∈ readVersions db driveId barePath canonicalPath)
    (hs : s ∈ readVersions db driveId barePath canonicalPath)
    (hid : r.id < s.id) (hcreated : r.createdAt ≤ s.createdAt) :
  (placed canonicalPath (readVersions db driveId barePath canonicalPath) r).version
    < (placed canonicalPath (readVersions db driveId barePath canonicalPath) s).version
  := by
  have h : Histories driveId barePath canonicalPath
      (readVersions db driveId barePath canonicalPath) db.fileVersions :=
    histories_readVersions driveId barePath canonicalPath hids
  have hsorted : (readVersions db driveId barePath canonicalPath).Pairwise Precedes :=
    List.pairwise_insertionSort Precedes _
  obtain ⟨i, hi⟩ := List.mem_iff_getElem?.mp hr
  obtain ⟨j, hj⟩ := List.mem_iff_getElem?.mp hs
  rw [placed_of_getElem? h.1 hi rfl, placed_of_getElem? h.1 hj rfl]
  dsimp only
  obtain ⟨hilt, hri⟩ := List.getElem?_eq_some_iff.mp hi
  obtain ⟨hjlt, hsj⟩ := List.getElem?_eq_some_iff.mp hj
  rcases lt_trichotomy i j with hij | rfl | hji
  · omega
  · rw [hri] at hsj
    rw [hsj] at hid
    exact absurd hid (lt_irrefl _)
  · have hprecedes := List.pairwise_iff_getElem.mp hsorted j i hjlt hilt hji
    rw [hri, hsj] at hprecedes
    unfold Precedes at hprecedes
    omega

/-! ### The rows of `files` -/

/-- The rows of the two spellings become one, under the canonical path. -/
theorem joinFiles_ok (hne : barePath ≠ canonicalPath) (driveId : Text) (hkeyed : Keyed fileKey db.files) :
  ∃ rows, joinFiles driveId barePath canonicalPath
      (readFiles db driveId barePath canonicalPath) db.files = .ok rows ∧
    Keyed fileKey rows ∧
    (∀ f ∈ rows, (f ∈ db.files ∧ ¬ f.At driveId barePath) ∨ f.At driveId canonicalPath) ∧
    ((∃ f ∈ db.files, f.At driveId barePath ∨ f.At driveId canonicalPath) →
      ∃ f ∈ rows, f.At driveId canonicalPath)
  := by
  by_cases hcanonical : (readFiles db driveId barePath canonicalPath).any
      (fun f => f.path = canonicalPath) = true
  · refine ⟨db.files.filter (fun f => ¬ f.At driveId barePath), ?_, hkeyed.filter _, ?_, ?_⟩
    · unfold joinFiles
      rw [if_pos hcanonical]
    · intro f hf
      rw [List.mem_filter, decide_eq_true_iff] at hf
      exact .inl hf
    · intro _
      obtain ⟨f, hf, hpath⟩ := List.any_eq_true.mp hcanonical
      unfold readFiles at hf
      rw [List.mem_filter, decide_eq_true_iff] at hf
      rw [decide_eq_true_iff] at hpath
      use f
      rw [List.mem_filter, decide_eq_true_iff]
      refine ⟨⟨hf.1, ?_⟩, hf.2.1, hpath⟩
      intro hbare
      exact hne (hbare.2.symm.trans hpath)
  · have hfree : ∀ f ∈ db.files, ¬ f.At driveId canonicalPath := by
      intro f hf hat
      apply hcanonical
      rw [List.any_eq_true]
      refine ⟨f, ?_, decide_eq_true hat.2⟩
      unfold readFiles
      rw [List.mem_filter, decide_eq_true_iff]
      exact ⟨hf, hat.1, .inr hat.2⟩
    have hmoved : Keyed fileKey (update (fun f => f.At driveId barePath)
        (fun f => { f with path := canonicalPath }) db.files) := by
      apply hkeyed.update_of_free
      · intro r hr s hs hr' hs' _
        unfold fileKey
        rw [hr'.1, hr'.2, hs'.1, hs'.2]
      · intro r _ s hs hr' _ heq
        unfold fileKey at heq
        simp only [Prod.mk.injEq] at heq
        exact hfree s hs ⟨heq.2.symm.trans hr'.1, heq.1.symm⟩
    refine ⟨_, ?_, hmoved, ?_, ?_⟩
    · unfold joinFiles
      rw [if_neg hcanonical]
      exact checked_of_keyed hmoved
    · intro f hf
      rcases mem_update.mp hf with ⟨g, _, hbare, rfl⟩ | ⟨hf, hbare⟩
      · exact .inr ⟨hbare.1, rfl⟩
      · exact .inl ⟨hf, hbare⟩
    · rintro ⟨f, hf, hbare | hat⟩
      · refine ⟨{ f with path := canonicalPath }, ?_, hbare.1, rfl⟩
        exact mem_update.mpr (.inl ⟨f, hf, hbare, rfl⟩)
      · exact absurd hat (hfree f hf)

/-! ### The merge -/

/-- Merging two histories succeeds.  Every version is at its place, the rows of `files` are
joined, and the index is reconciled. -/
theorem mergeSplitPath_ok (hne : barePath ≠ canonicalPath) (hcanonical : ¬ IsBare canonicalPath)
    (hvalid : Valid db) (now : Nat) (fts : FtsTables) (driveId : Text)
    (summary : PathNormalizationMigrationSummary) :
  ∃ summary' rows status search,
    joinFiles driveId barePath canonicalPath (readFiles db driveId barePath canonicalPath) db.files
      = .ok rows ∧
    Reindexed fts driveId barePath canonicalPath { db.toSearchTables with files := rows } search ∧
    mergeSplitPath now fts db driveId barePath canonicalPath summary = .ok (summary', {
      toSearchTables := { search with
        files := update (fun f => f.At driveId canonicalPath)
          (mergedFile now (readVersions db driveId barePath canonicalPath)
            (readFiles db driveId barePath canonicalPath) status) rows }
      fileVersions := db.fileVersions.map
        (placed canonicalPath (readVersions db driveId barePath canonicalPath))
      comments := renameComments driveId barePath canonicalPath db.comments
      shares := renameShares driveId barePath canonicalPath db.shares })
  := by
  have hversions := renumberVersions_eq hvalid.versionIds hvalid.versionKeys
    (histories_readVersions driveId barePath canonicalPath hvalid.versionIds)
  obtain ⟨rows, hrows, _⟩ := joinFiles_ok hne driveId hvalid.fileKeys
  obtain ⟨status, search, hindex, hreindexed⟩ := mergeIndex_ok barePath hcanonical fts
    { db.toSearchTables with files := rows } driveId hvalid.docKeys
    (readVersions db driveId barePath canonicalPath)
    (readFiles db driveId barePath canonicalPath)
  unfold mergeSplitPath
  dsimp only
  rw [hversions.1, hrows]
  simp only [bind, Except.bind, hindex]
  have hfiles : search.files = rows := hreindexed.files
  rw [hfiles]
  exact ⟨_, rows, status, search, rfl, hreindexed, rfl⟩

/-! ### The merged history -/

/-- What a merge makes of the two histories of a path. -/
structure Merged (db db' : PathTables) (driveId barePath canonicalPath : Text) : Prop where
  /-- The versions of both spellings are under the canonical path with the numbers `1..n`,
  and otherwise as they were. -/
  versions : readVersions db' driveId barePath canonicalPath =
    (readVersions db driveId barePath canonicalPath).mapIdx
      (fun i r => { r with path := canonicalPath, version := i + 1 })
  /-- The numbers follow the order of `(created_at, id)`. -/
  ordered : (readVersions db' driveId barePath canonicalPath).Pairwise Precedes
  /-- All other versions are as they were. -/
  others : db'.fileVersions.filter (fun r => ¬ OfEither driveId barePath canonicalPath r)
    = db.fileVersions.filter (fun r => ¬ OfEither driveId barePath canonicalPath r)
  /-- Within one spelling whose ids and creation times grow with the version, the versions
  keep their order. -/
  order_kept : ∀ path ∈ [barePath, canonicalPath],
    (∀ r ∈ db.fileVersions, ∀ s ∈ db.fileVersions, r.driveId = driveId → s.driveId = driveId →
      r.path = path → s.path = path → r.version < s.version →
        r.id < s.id ∧ r.createdAt ≤ s.createdAt) →
    ∀ r ∈ db.fileVersions, ∀ s ∈ db.fileVersions, r.driveId = driveId → s.driveId = driveId →
      r.path = path → s.path = path → r.version < s.version →
        ∀ r' ∈ db'.fileVersions, ∀ s' ∈ db'.fileVersions, r'.id = r.id → s'.id = s.id →
          r'.version < s'.version
  /-- If a spelling had a row of `files`, one row remains: it is at the last version, and
  deleted when that version is a deletion. -/
  file : (∃ f ∈ db.files, f.At driveId barePath ∨ f.At driveId canonicalPath) →
    ∃ f, readFiles db' driveId barePath canonicalPath = [f] ∧ f.path = canonicalPath ∧
      f.currentVersionId =
        some (toString (readVersions db driveId barePath canonicalPath).length).toList ∧
      (f.isDeleted = true ↔ ∃ r ∈ (readVersions db driveId barePath canonicalPath).getLast?,
        r.operation = Operation.delete)

/-- The final `UPDATE files` does not touch the key. -/
theorem fileKey_mergedFile (now : Nat) (versions : List FileVersionRow)
    (files : List IndexedFile) (status : Option EmbeddingStatus) (f : IndexedFile) :
  fileKey (mergedFile now versions files status f) = fileKey f
  := rfl

/-- A list of at most one element that has an element. -/
theorem eq_singleton_of_mem {α : Type} {l : List α} (hlength : l.length ≤ 1) {a : α}
    (ha : a ∈ l) :
  l = [a]
  := by
  match l, hlength with
  | [b], _ => rw [List.mem_singleton.mp ha]

/-- The one row of `files` that a merge leaves. -/
theorem readFiles_merged {rows : List IndexedFile}
    {db' : PathTables} (hkeyed : Keyed fileKey rows)
    (hgone : ∀ f ∈ rows, ¬ f.At driveId barePath) {f : IndexedFile} (hf : f ∈ rows)
    (hat : f.At driveId canonicalPath)
    {change : IndexedFile → IndexedFile} (hchange : ∀ f, fileKey (change f) = fileKey f)
    (hdb' : db'.files = update (fun f => f.At driveId canonicalPath) change rows) :
  readFiles db' driveId barePath canonicalPath = [change f]
  := by
  have hone : rows.filter (fun g => g.At driveId canonicalPath) = [f] := by
    apply eq_singleton_of_mem
    · apply hkeyed.length_filter_le_one
      intro g hg hgat
      have hkey := of_decide_eq_true hgat
      show fileKey g = (canonicalPath, driveId)
      unfold fileKey
      rw [hkey.1, hkey.2]
    · rw [List.mem_filter, decide_eq_true_iff]
      exact ⟨hf, hat⟩
  have hkeep : ∀ g, g.At driveId canonicalPath → (change g).At driveId canonicalPath := by
    intro g hg
    have hkey := hchange g
    unfold fileKey at hkey
    simp only [Prod.mk.injEq] at hkey
    exact ⟨hkey.2.trans hg.1, hkey.1.trans hg.2⟩
  have hfilter : readFiles db' driveId barePath canonicalPath
      = (rows.filter (fun g => g.At driveId canonicalPath)).map
        (fun g => if g.At driveId canonicalPath then change g else g) := by
    unfold readFiles
    rw [hdb']
    unfold update
    rw [List.filter_map]
    congr 1
    apply List.filter_congr
    intro g hg
    simp only [Function.comp]
    rw [decide_eq_decide]
    by_cases hgat : g.At driveId canonicalPath
    · rw [if_pos hgat]
      have hchanged := hkeep g hgat
      exact ⟨fun _ => hgat, fun _ => ⟨hchanged.1, .inr hchanged.2⟩⟩
    · rw [if_neg hgat]
      constructor
      · rintro ⟨hdrive, hbare | hcanonical⟩
        · exact absurd ⟨hdrive, hbare⟩ (hgone g hg)
        · exact ⟨hdrive, hcanonical⟩
      · exact fun hg' => absurd hg' hgat
  rw [hfilter, hone]
  simp [hat]

/-- Where at least one of two spellings of a path has a version, `mergeSplitPath` runs
without breaking an index and merges the two histories. -/
theorem mergeSplitPath_merges (hvalid : Valid db) (now : Nat) (fts : FtsTables)
    (driveId barePath : Text) (summary : PathNormalizationMigrationSummary)
    (hversions : readVersions db driveId barePath ('/' :: barePath) ≠ []) :
  ∃ summary' db', mergeSplitPath now fts db driveId barePath ('/' :: barePath) summary
      = .ok (summary', db') ∧ Merged db db' driveId barePath ('/' :: barePath)
  := by
  have hne : barePath ≠ '/' :: barePath := (List.cons_ne_self _ _).symm
  have hcanonical : ¬ IsBare ('/' :: barePath) := fun h => h rfl
  obtain ⟨summary', rows, status, search, hrows, _, hok⟩ :=
    mergeSplitPath_ok hne hcanonical hvalid now fts driveId summary
  obtain ⟨rows', hrows', hkeyed, hmem, hone⟩ := joinFiles_ok hne driveId hvalid.fileKeys
  rw [hrows] at hrows'
  cases hrows'
  refine ⟨summary', _, hok, ?_⟩
  have h := histories_readVersions driveId barePath ('/' :: barePath) hvalid.versionIds
  constructor
  case versions => exact readVersions_placed hvalid.versionIds rfl
  case ordered => exact List.pairwise_insertionSort Precedes _
  case others => exact filter_map_placed hvalid.versionIds h
  case order_kept =>
    intro path hpath hgrow r hr s hs hrd hsd hrp hsp hlt r' hr' s' hs' hr'id hs'id
    obtain ⟨hid, hcreated⟩ := hgrow r hr s hs hrd hsd hrp hsp hlt
    have hof : ∀ t ∈ db.fileVersions, t.driveId = driveId → t.path = path →
        t ∈ readVersions db driveId barePath ('/' :: barePath) := by
      intro t ht htd htp
      rw [h.2 t]
      refine ⟨ht, htd, ?_⟩
      rw [List.mem_cons, List.mem_singleton] at hpath
      rw [htp]
      exact hpath
    have hplaced : ∀ t ∈ db.fileVersions, ∀ t' ∈ db.fileVersions.map (placed ('/' :: barePath)
        (readVersions db driveId barePath ('/' :: barePath))), t'.id = t.id →
        t' = placed ('/' :: barePath) (readVersions db driveId barePath ('/' :: barePath)) t := by
      intro t ht t' ht' hid'
      obtain ⟨u, hu, rfl⟩ := List.mem_map.mp ht'
      rw [placed_id] at hid'
      rw [hvalid.versionIds.eq_of_mem hu ht hid']
    rw [hplaced r hr r' hr' hr'id, hplaced s hs s' hs' hs'id]
    exact placed_order hvalid.versionIds (hof r hr hrd hrp) (hof s hs hsd hsp) hid hcreated
  case file =>
    intro hexists
    obtain ⟨f, hf, hat⟩ := hone hexists
    have hgone : ∀ g ∈ rows, ¬ g.At driveId barePath := by
      intro g hg hbare
      rcases hmem g hg with ⟨_, hnot⟩ | hg
      · exact hnot hbare
      · exact hne (hbare.2.symm.trans hg.2)
    refine ⟨_, readFiles_merged hkeyed hgone hf hat
      (fileKey_mergedFile now (readVersions db driveId barePath ('/' :: barePath))
        (readFiles db driveId barePath ('/' :: barePath)) status) rfl, hat.2, ?_⟩
    obtain ⟨last, hlast⟩ : ∃ last,
        (readVersions db driveId barePath ('/' :: barePath)).getLast? = some last := by
      exact ⟨_, List.getLast?_eq_some_getLast hversions⟩
    simp [mergedFile, mergedIsDeleted, hlast]

/-! ### A split path -/

/-- A version row of the drive `d`. -/
def sampleVersion (id : Nat) (path : Text) (version createdAt : Nat) (operation : Operation) :
    FileVersionRow where
  id := id
  path := path
  driveId := "d".toList
  version := version
  s3VersionId := []
  author := "u".toList
  operation := operation
  message := none
  diffSummary := none
  size := some 1
  etag := none
  contentHash := none
  createdAt := createdAt

/-- A row of `files` of the drive `d`. -/
def sampleFile (path : Text) (version : Text) (modifiedAt : Nat) : IndexedFile where
  path := path
  driveId := "d".toList
  size := 1
  contentType := none
  author := "u".toList
  currentVersionId := some version
  createdAt := 0
  modifiedAt := modifiedAt
  isDeleted := false
  embeddingStatus := some .indexed
  imageEmbeddingStatus := none

/-- Two interleaved histories of `a` and `/a`, with a gap in the numbers. -/
def sampleSplit : PathTables where
  toSearchTables := { SearchTables.empty with
    files := [sampleFile "/a".toList "3".toList 7, sampleFile "a".toList "2".toList 9] }
  fileVersions := [
    sampleVersion 1 "/a".toList 1 5 .write,
    sampleVersion 2 "a".toList 1 6 .write,
    sampleVersion 3 "/a".toList 3 7 .edit,
    sampleVersion 4 "a".toList 2 9 .delete]
  comments := []
  shares := []

theorem valid_sampleSplit :
  Valid sampleSplit
  := ⟨by decide, by decide, by decide, by decide⟩

theorem mergeSplitPath_merges_sampleSplit :
  ∃ summary' db', mergeSplitPath 0 ⟨none, none⟩ sampleSplit "d".toList "a".toList "/a".toList {}
      = .ok (summary', db') ∧ Merged sampleSplit db' "d".toList "a".toList "/a".toList
  := mergeSplitPath_merges valid_sampleSplit 0 ⟨none, none⟩ "d".toList "a".toList {}
      (by decide +kernel)

end AgentFs.PathNormalization

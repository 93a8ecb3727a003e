import Mathlib.Order.Basic
import AgentFs.Search.Candidates

/-!
# The exact ranking of files

If the scan returns the nearest chunks of files that are not excluded, `findVectorCandidates`
returns the first files by their nearest chunks, however many chunks are near.
-/

namespace AgentFs

open Distinct Tabular

variable {δ : Type}

/-! ### Matches -/

/-- The matches of a chunk. -/
def chunkFiles (db : SearchTables) (chunk : ChunkRow) : List ChunkMatch :=
  (db.files.filter (fun file => file.driveId = chunk.driveId ∧ file.path = chunk.filePath ∧
    file.isDeleted = false)).map (chunkMatch chunk)

theorem mem_chunkFiles {db : SearchTables} {chunk : ChunkRow} {m : ChunkMatch}
    (h : m ∈ chunkFiles db chunk) :
  m.id = chunk.id ∧ m.path = chunk.filePath ∧ ∃ file ∈ db.files,
    file.driveId = chunk.driveId ∧ file.path = chunk.filePath ∧ file.isDeleted = false
  := by
  obtain ⟨file, hfile, rfl⟩ := List.mem_map.mp h
  rw [List.mem_filter, decide_eq_true_eq] at hfile
  exact ⟨rfl, rfl, file, hfile⟩

/-- The match of a chunk, if it is one of a live file of the drive. -/
def liveMatch (db : SearchTables) (driveId : Text) (id : Nat) : Option ChunkMatch :=
  matchById (chunkMatches db driveId [id]) id

/-- The matches with one id do not depend on the other ids. -/
theorem filter_flatMap_chunkFiles {db : SearchTables} {ids : List Nat} {id : Nat}
    (hid : id ∈ ids) (driveId : Text) (chunks : List ChunkRow) :
  ((chunks.filter (fun chunk => chunk.id ∈ ids ∧ chunk.driveId = driveId)).flatMap
      (chunkFiles db)).filter (fun m => m.id = id) =
    (chunks.filter (fun chunk => chunk.id = id ∧ chunk.driveId = driveId)).flatMap (chunkFiles db)
  := by
  induction chunks with
  | nil => rfl
  | cons chunk chunks ih =>
      have hfiles : (chunkFiles db chunk).filter (fun m => m.id = id) =
          if chunk.id = id then chunkFiles db chunk else [] := by
        split
        · rename_i heq
          rw [List.filter_eq_self]
          intro m hm
          rw [decide_eq_true_eq, (mem_chunkFiles hm).1, heq]
        · rename_i hne
          rw [List.filter_eq_nil_iff]
          intro m hm
          rw [decide_eq_true_eq, (mem_chunkFiles hm).1]
          exact hne
      rw [List.filter_cons, List.filter_cons]
      by_cases hdrive : chunk.driveId = driveId
      · by_cases heq : chunk.id = id
        · subst heq
          simp [-Bool.decide_and, hid, hdrive, hfiles, ih]
        · by_cases hmem : chunk.id ∈ ids
          · simp [-Bool.decide_and, heq, hmem, hdrive, hfiles, ih]
          · simp [-Bool.decide_and, heq, hmem, ih]
      · simp [-Bool.decide_and, hdrive, ih]

theorem matchById_chunkMatches {db : SearchTables} {driveId : Text} {ids : List Nat} {id : Nat}
    (hid : id ∈ ids) :
  matchById (chunkMatches db driveId ids) id = liveMatch db driveId id
  := by
  have hids := @filter_flatMap_chunkFiles db _ _ hid driveId db.contentChunks
  have hone := @filter_flatMap_chunkFiles db _ _ (List.mem_singleton_self id) driveId
    db.contentChunks
  exact congrArg List.getLast? (hids.trans hone.symm)

/-- A chunk of a live file of the drive. -/
def ChunkOf (db : SearchTables) (driveId path : Text) (id : Nat) : Prop :=
  ∃ chunk ∈ db.contentChunks, (chunk.id = id ∧ chunk.driveId = driveId ∧ chunk.filePath = path) ∧
    ∃ file ∈ db.files, file.driveId = driveId ∧ file.path = path ∧ file.isDeleted = false

theorem mem_chunkMatches {db : SearchTables} {driveId : Text} {ids : List Nat} {m : ChunkMatch} :
  m ∈ chunkMatches db driveId ids ↔
    ∃ chunk ∈ db.contentChunks, (chunk.id ∈ ids ∧ chunk.driveId = driveId) ∧ m ∈ chunkFiles db chunk
  := by
  unfold chunkMatches
  rw [List.mem_flatMap]
  constructor
  · rintro ⟨chunk, hchunk, hm⟩
    rw [List.mem_filter, decide_eq_true_eq] at hchunk
    exact ⟨chunk, hchunk.1, hchunk.2, hm⟩
  · rintro ⟨chunk, hmem, hchunk, hm⟩
    exact ⟨chunk, List.mem_filter.mpr ⟨hmem, decide_eq_true hchunk⟩, hm⟩

theorem chunkOf_of_liveMatch {db : SearchTables} {driveId : Text} {id : Nat} {m : ChunkMatch}
    (h : liveMatch db driveId id = some m) :
  ChunkOf db driveId m.path id
  := by
  have hm := List.mem_of_mem_filter (List.mem_of_getLast? h)
  obtain ⟨chunk, hchunk, ⟨hid, rfl⟩, hm'⟩ := mem_chunkMatches.mp hm
  obtain ⟨-, hpath, file, hfile, hlive⟩ := mem_chunkFiles hm'
  rw [hpath]
  exact ⟨chunk, hchunk, ⟨List.mem_singleton.mp hid, rfl, rfl⟩, file, hfile, hlive⟩

theorem exists_liveMatch {db : SearchTables} {driveId path : Text} {id : Nat}
    (hids : Keyed ChunkRow.id db.contentChunks) (h : ChunkOf db driveId path id) :
  ∃ m, liveMatch db driveId id = some m ∧ m.path = path
  := by
  obtain ⟨chunk, hchunk, ⟨rfl, rfl, rfl⟩, file, hfile, hlive⟩ := h
  have hne : (chunkMatches db chunk.driveId [chunk.id]).filter (fun m => m.id = chunk.id) ≠ [] := by
    have hmatch : chunkMatch chunk file ∈ chunkFiles db chunk :=
      List.mem_map_of_mem (List.mem_filter.mpr ⟨hfile, decide_eq_true hlive⟩)
    apply List.ne_nil_of_mem (a := chunkMatch chunk file)
    rw [List.mem_filter, mem_chunkMatches]
    exact ⟨⟨chunk, hchunk, ⟨List.mem_singleton_self _, rfl⟩, hmatch⟩, decide_eq_true rfl⟩
  refine ⟨_, List.getLast?_eq_some_getLast hne, ?_⟩
  have hm := List.mem_of_mem_filter (List.getLast_mem hne)
  obtain ⟨other, hother, ⟨hid, -⟩, hm'⟩ := mem_chunkMatches.mp hm
  rw [(mem_chunkFiles hm').2.1, hids.eq_of_mem hother hchunk (List.mem_singleton.mp hid)]

/-! ### The ranking -/

/-- The condition of the scan: a chunk of a live file of the drive that is not excluded. -/
def ScanSelects (db : SearchTables) (driveId : Text) (excludedPaths : List Text) (id : Nat) :
    Prop :=
  ∃ chunk ∈ db.contentChunks, (chunk.id = id ∧ chunk.driveId = driveId ∧
    chunk.filePath ∉ excludedPaths) ∧ ∃ file ∈ db.files, file.driveId = chunk.driveId ∧
      file.path = chunk.filePath ∧ file.isDeleted = false

instance (db : SearchTables) (driveId : Text) (excludedPaths : List Text) (id : Nat) :
    Decidable (ScanSelects db driveId excludedPaths id) :=
  inferInstanceAs (Decidable (∃ _ ∈ _, _))

theorem scanSelects_iff {db : SearchTables} {driveId : Text} {excludedPaths : List Text} {id : Nat} :
  ScanSelects db driveId excludedPaths id ↔
    ∃ path, path ∉ excludedPaths ∧ ChunkOf db driveId path id
  := by
  constructor
  · rintro ⟨chunk, hchunk, ⟨hid, rfl, hpath⟩, hfile⟩
    exact ⟨chunk.filePath, hpath, chunk, hchunk, ⟨hid, rfl, rfl⟩, hfile⟩
  · rintro ⟨path, hpath, chunk, hchunk, ⟨hid, rfl, rfl⟩, hfile⟩
    exact ⟨chunk, hchunk, ⟨hid, rfl, hpath⟩, hfile⟩

/-- The scan for a query returns the nearest chunks: there is one ranking of all vectors by their
distance, and each scan returns the first `k` of it that its condition selects. -/
structure NearestChunks [LE δ] (runKnn : KnnParams → List (ChunkHit δ)) (db : SearchTables)
    (driveId : Text) (query : Bytes) (ranking : List (ChunkHit δ)) : Prop where
  vectors : (ranking.map ChunkHit.chunkId).Perm (db.chunkVectors.map VectorRow.chunkId)
  sorted : ranking.Pairwise (fun hit other => hit.distance ≤ other.distance)
  nearest : ∀ (excludedPaths : List Text) (k : Nat),
    runKnn ⟨query, driveId, excludedPaths, k⟩ =
      (ranking.filter (fun hit => ScanSelects db driveId excludedPaths hit.chunkId)).take k

/-- The hits of a ranking on live files, with their matches. -/
def rankedMatches (db : SearchTables) (driveId : Text) (ranking : List (ChunkHit δ)) :
    List (ChunkHit δ × ChunkMatch) :=
  ranking.filterMap (fun hit => (liveMatch db driveId hit.chunkId).map (hit, ·))

/-- The file of a match. -/
def matchPath (p : ChunkHit δ × ChunkMatch) : Text := p.2.path

/-- The nearest chunk of each live file, in the order of the ranking. -/
def exactCandidates (db : SearchTables) (driveId : Text) (ranking : List (ChunkHit δ)) :
    List (VectorCandidate δ) :=
  (firstOfEach matchPath [] (rankedMatches db driveId ranking)).map
    (fun p => vectorCandidate p.1 p.2)

theorem mem_rankedMatches {db : SearchTables} {driveId : Text} {ranking : List (ChunkHit δ)}
    {p : ChunkHit δ × ChunkMatch} :
  p ∈ rankedMatches db driveId ranking ↔
    p.1 ∈ ranking ∧ liveMatch db driveId p.1.chunkId = some p.2
  := by
  unfold rankedMatches
  rw [List.mem_filterMap]
  constructor
  · rintro ⟨hit, hhit, hmatch⟩
    obtain ⟨m, hm, rfl⟩ := Option.map_eq_some_iff.mp hmatch
    exact ⟨hhit, hm⟩
  · rintro ⟨hhit, hm⟩
    exact ⟨p.1, hhit, by rw [hm]; rfl⟩

/-- The hits that a scan selects are those on files that are not excluded. -/
theorem filter_scanSelects {db : SearchTables} (hids : Keyed ChunkRow.id db.contentChunks)
    (driveId : Text) (excludedPaths : List Text) (ranking : List (ChunkHit δ)) :
  ranking.filter (fun hit => ScanSelects db driveId excludedPaths hit.chunkId) =
    (unseen matchPath excludedPaths (rankedMatches db driveId ranking)).map Prod.fst
  := by
  unfold unseen
  induction ranking with
  | nil => rfl
  | cons hit ranking ih =>
      unfold rankedMatches at ih ⊢
      cases hmatch : liveMatch db driveId hit.chunkId with
      | none =>
          have hno : ¬ ScanSelects db driveId excludedPaths hit.chunkId := by
            rw [scanSelects_iff]
            rintro ⟨path, -, hchunk⟩
            obtain ⟨m, hm, -⟩ := exists_liveMatch hids hchunk
            rw [hmatch] at hm
            cases hm
          rw [List.filter_cons_of_neg (by simpa using hno), ih,
            List.filterMap_cons_none (by rw [hmatch]; rfl)]
      | some m =>
          have hselects : ScanSelects db driveId excludedPaths hit.chunkId ↔
              m.path ∉ excludedPaths := by
            rw [scanSelects_iff]
            constructor
            · rintro ⟨path, hpath, hchunk⟩
              obtain ⟨m', hm', rfl⟩ := exists_liveMatch hids hchunk
              rw [hmatch, Option.some.injEq] at hm'
              rw [hm']
              exact hpath
            · exact fun hpath => ⟨m.path, hpath, chunkOf_of_liveMatch hmatch⟩
          rw [List.filterMap_cons_some (b := (hit, m)) (by rw [hmatch]; rfl)]
          by_cases hpath : m.path ∈ excludedPaths
          · rw [List.filter_cons_of_neg (by simp [hselects, hpath]), ih,
              List.filter_cons_of_neg (by simp [matchPath, hpath])]
          · rw [List.filter_cons_of_pos (by simp [hselects, hpath]), ih,
              List.filter_cons_of_pos (by simp [matchPath, hpath]), List.map_cons]

/-! ### The loop -/

/-- What the hits add to the candidates: the first match of each new file, up to the limit. -/
theorem addDistinctFiles_eq {found : List ChunkMatch} {limit : Nat}
    {pairs : List (ChunkHit δ × ChunkMatch)}
    (hfound : ∀ p ∈ pairs, matchById found p.1.chunkId = some p.2)
    {candidates : List (VectorCandidate δ)} (hlength : candidates.length ≤ limit) :
  addDistinctFiles found limit (pairs.map Prod.fst) candidates =
    candidates ++ ((firstOfEach matchPath (candidates.map VectorCandidate.path) pairs).take
      (limit - candidates.length)).map (fun p => vectorCandidate p.1 p.2)
  := by
  induction pairs generalizing candidates with
  | nil => simp [addDistinctFiles]
  | cons p pairs ih =>
      rw [List.forall_mem_cons] at hfound
      rw [List.map_cons, addDistinctFiles]
      by_cases hfull : candidates.length = limit
      · rw [if_pos hfull, hfull, Nat.sub_self, List.take_zero, List.map_nil, List.append_nil]
      · rw [if_neg hfull, hfound.1]
        dsimp only
        by_cases hpath : p.2.path ∈ candidates.map VectorCandidate.path
        · have hseen : matchPath p ∈ candidates.map VectorCandidate.path := hpath
          rw [if_pos hpath, ih hfound.2 hlength, firstOfEach_cons_seen hseen]
        · have hnew : matchPath p ∉ candidates.map VectorCandidate.path := hpath
          have hroom : limit - candidates.length = limit - (candidates.length + 1) + 1 := by
            omega
          have hadd : (candidates ++ [vectorCandidate p.1 p.2]).length = candidates.length + 1 :=
            List.length_append
          rw [if_neg hpath, firstOfEach_cons_new hnew, ih hfound.2 (by omega), hadd, hroom,
            List.take_succ_cons, List.map_cons, List.append_assoc, List.singleton_append,
            List.map_append, List.map_singleton]
          rw [firstOfEach_congr]
          intro b
          rw [List.mem_append, List.mem_singleton, List.mem_cons]
          exact or_comm

/-- A scan below the limit asks for a chunk. -/
theorem scanSize_pos {limit taken : Nat} (h : taken < limit) :
  0 < scanSize limit taken
  := by
  unfold scanSize overfetch maxKnnResults
  omega

theorem map_path_vectorCandidate (pairs : List (ChunkHit δ × ChunkMatch)) :
  (pairs.map (fun p => vectorCandidate p.1 p.2)).map VectorCandidate.path = pairs.map matchPath
  := by
  rw [List.map_map]
  rfl

section Loop

variable {runKnn : KnnParams → List (ChunkHit δ)} {db : SearchTables} {driveId : Text}
  {query : Bytes} {ranking : List (ChunkHit δ)}

/-- What one scan returns when some files are taken, and what it adds to them. -/
theorem scan_adds [LE δ] (hids : Keyed ChunkRow.id db.contentChunks)
    (hnearest : NearestChunks runKnn db driveId query ranking) {limit k : Nat}
    {taken : List (ChunkHit δ × ChunkMatch)} (hlength : taken.length ≤ limit)
    {left : List (ChunkHit δ × ChunkMatch)}
    (hleft : unseen matchPath (taken.map matchPath) (rankedMatches db driveId ranking) = left) :
  let candidates := taken.map (fun p => vectorCandidate p.1 p.2)
  let hits := runKnn ⟨query, driveId, candidates.map VectorCandidate.path, k⟩
  hits = (left.take k).map Prod.fst ∧
    addDistinctFiles (chunkMatches db driveId (hits.map ChunkHit.chunkId)) limit hits candidates =
      (taken ++ (firstOfEach matchPath [] (left.take k)).take (limit - taken.length)).map
        (fun p => vectorCandidate p.1 p.2)
  := by
  intro candidates hits
  have hhits : hits = (left.take k).map Prod.fst := by
    rw [List.map_take, ← hleft]
    unfold hits candidates
    rw [hnearest.nearest, filter_scanSelects hids, map_path_vectorCandidate]
  refine ⟨hhits, ?_⟩
  have hfound : ∀ p ∈ left.take k,
      matchById (chunkMatches db driveId (hits.map ChunkHit.chunkId)) p.1.chunkId = some p.2 := by
    intro p hp
    have hmem : p.1.chunkId ∈ hits.map ChunkHit.chunkId := by
      rw [hhits]
      exact List.mem_map_of_mem (List.mem_map_of_mem hp)
    have hp' := List.mem_of_mem_take hp
    rw [← hleft, mem_unseen] at hp'
    rw [matchById_chunkMatches hmem]
    exact (mem_rankedMatches.mp hp'.1).2
  have hunseen : unseen matchPath (taken.map matchPath) (left.take k) = left.take k := by
    apply unseen_eq_self
    intro p hp
    have hp' := List.mem_of_mem_take hp
    rw [← hleft, mem_unseen] at hp'
    exact hp'.2
  have hcandidates : candidates.length = taken.length := List.length_map _
  have hadded := @addDistinctFiles_eq δ _ limit _ hfound candidates
    (Nat.le_trans (Nat.le_of_eq hcandidates) hlength)
  rw [← hhits] at hadded
  rw [hadded, hcandidates, map_path_vectorCandidate, ← List.append_nil (taken.map matchPath),
    firstOfEach_append_seen, hunseen, List.map_append]

/-- The first `n` of a list and the next of it, up to a limit, are more of the list. -/
theorem take_append_take {α : Type} {files next : List α} {n limit : Nat} (hn : n < limit)
    (hlength : n ≤ files.length) (hnext : next <+: files.drop n) (hnil : next ≠ []) :
  ∃ m, n < m ∧ m ≤ limit ∧ m ≤ files.length ∧
    files.take n ++ next.take (limit - n) = files.take m ∧
    (next = files.drop n → files.take m = files.take limit)
  := by
  have hle := hnext.length_le
  have hpos := List.length_pos_iff.mpr hnil
  have heq := List.prefix_iff_eq_take.mp hnext
  rw [List.length_drop] at hle
  refine ⟨n + min (limit - n) next.length, by omega, by omega, by omega, ?_, ?_⟩
  · rw [List.take_add]
    apply congrArg
    calc next.take (limit - n) = ((files.drop n).take next.length).take (limit - n) := by
          rw [← heq]
      _ = (files.drop n).take (min (limit - n) next.length) := List.take_take
  · intro hall
    rw [hall, List.length_drop, List.take_eq_take_iff]
    omega

/-- From the first files of the ranking on, the loop ends with the first `limit`. -/
theorem candidatesLoop_eq [LE δ] (hids : Keyed ChunkRow.id db.contentChunks)
    (hnearest : NearestChunks runKnn db driveId query ranking) {limit : Nat}
    {files : List (ChunkHit δ × ChunkMatch)}
    (hfiles : firstOfEach matchPath [] (rankedMatches db driveId ranking) = files)
    {fuel n : Nat} (hn : n ≤ limit) (hlength : n ≤ files.length) (hfuel : limit - n < fuel) :
  candidatesLoop runKnn db driveId query limit fuel
      ((files.take n).map (fun p => vectorCandidate p.1 p.2)) =
    some ((files.take limit).map (fun p => vectorCandidate p.1 p.2))
  := by
  induction fuel generalizing n with
  | zero => exact absurd hfuel (Nat.not_lt_zero _)
  | succ fuel ih =>
      have htaken : (files.take n).length = n := List.length_take_of_le hlength
      rw [candidatesLoop, List.length_map, htaken]
      by_cases hmore : n < limit
      · rw [if_pos hmore]
        generalize hleft : unseen matchPath ((files.take n).map matchPath)
          (rankedMatches db driveId ranking) = left
        obtain ⟨hhits, hadded⟩ := scan_adds (k := scanSize limit n) hids hnearest
          (Nat.le_trans (Nat.le_of_eq htaken) hn) hleft
        have hfirst : firstOfEach matchPath [] left = files.drop n := by
          rw [← hleft, ← hfiles]
          apply firstOfEach_unseen_take
        dsimp only at hhits hadded ⊢
        rw [hadded, htaken]
        generalize runKnn _ = hits at hhits
        have hpos := scanSize_pos hmore
        by_cases hnil : left = []
        · have hdrop : files.drop n = [] := by
            rw [← hfirst, hnil]
            rfl
          have hall : files.length ≤ n := List.drop_eq_nil_iff.mp hdrop
          rw [hnil, List.take_nil, List.map_nil] at hhits
          rw [if_pos hhits, List.take_of_length_le hall,
            List.take_of_length_le (Nat.le_trans hall hn)]
        · have hne : left.take (scanSize limit n) ≠ [] := by
            rw [Ne, List.take_eq_nil_iff, not_or]
            exact ⟨Nat.ne_of_gt hpos, hnil⟩
          have hstart : firstOfEach matchPath [] (left.take (scanSize limit n)) <+:
              files.drop n := by
            rw [← hfirst]
            apply firstOfEach_take_prefix
          have hhits' : hits ≠ [] := by
            rw [hhits, Ne, List.map_eq_nil_iff]
            exact hne
          obtain ⟨m, hlt, hle, hlength', htake, hlast⟩ := take_append_take hmore hlength hstart
            (fun h => hne (firstOfEach_eq_nil_iff.mp h))
          rw [if_neg hhits', htake]
          by_cases hfew : hits.length < scanSize limit n
          · rw [if_pos (.inl hfew), hlast]
            rw [hhits, List.length_map, List.length_take] at hfew
            rw [← hfirst, List.take_of_length_le (by omega)]
          · have hadds : ¬ ((files.take m).map (fun p => vectorCandidate p.1 p.2)).length = n := by
              rw [List.length_map, List.length_take_of_le hlength']
              omega
            rw [if_neg (not_or.mpr ⟨hfew, hadds⟩)]
            apply ih hle hlength'
            omega
      · rw [if_neg hmore, Nat.le_antisymm hn (Nat.not_lt.mp hmore)]

/-- The candidates are the first files of the exact ranking.  This has each live file with a
stored vector once, by the distance of its nearest chunk. -/
theorem findVectorCandidates_exact [Preorder δ] (hids : Keyed ChunkRow.id db.contentChunks)
    (hnearest : NearestChunks runKnn db driveId query ranking) {limit fuel : Nat}
    (hfuel : limit < fuel) :
  findVectorCandidates runKnn db driveId query limit fuel =
      some ((exactCandidates db driveId ranking).take limit) ∧
    ((exactCandidates db driveId ranking).map VectorCandidate.path).Nodup ∧
    (∀ path, path ∈ (exactCandidates db driveId ranking).map VectorCandidate.path ↔
      ∃ vector ∈ db.chunkVectors, ChunkOf db driveId path vector.chunkId) ∧
    (exactCandidates db driveId ranking).Pairwise (fun c d => c.distance ≤ d.distance) ∧
    ∀ c ∈ exactCandidates db driveId ranking, ∃ hit ∈ ranking,
      ChunkOf db driveId c.path hit.chunkId ∧ c.distance = hit.distance ∧
        ∀ other ∈ ranking, ChunkOf db driveId c.path other.chunkId → hit.distance ≤ other.distance
  := by
  have hsorted : (rankedMatches db driveId ranking).Pairwise
      (fun p q => p.1.distance ≤ q.1.distance) := by
    unfold rankedMatches
    rw [List.pairwise_filterMap]
    apply hnearest.sorted.imp
    intro hit other hle p hp q hq
    obtain ⟨-, -, rfl⟩ := Option.map_eq_some_iff.mp hp
    obtain ⟨-, -, rfl⟩ := Option.map_eq_some_iff.mp hq
    exact hle
  unfold exactCandidates
  refine ⟨?_, ?_, ?_, ?_, ?_⟩
  · unfold findVectorCandidates
    rw [← List.map_take]
    exact candidatesLoop_eq hids hnearest rfl (Nat.zero_le _) (Nat.zero_le _) hfuel
  · rw [map_path_vectorCandidate]
    apply nodup_keys_firstOfEach
  · intro path
    rw [map_path_vectorCandidate, mem_keys_firstOfEach_iff, and_iff_right List.not_mem_nil]
    constructor
    · intro hpath
      obtain ⟨p, hp, rfl⟩ := List.mem_map.mp hpath
      obtain ⟨hhit, hm⟩ := mem_rankedMatches.mp hp
      have hid := hnearest.vectors.subset (List.mem_map_of_mem hhit)
      obtain ⟨vector, hvector, hid⟩ := List.mem_map.mp hid
      refine ⟨vector, hvector, ?_⟩
      rw [hid]
      exact chunkOf_of_liveMatch hm
    · rintro ⟨vector, hvector, hchunk⟩
      have hid := hnearest.vectors.symm.subset (List.mem_map_of_mem hvector)
      obtain ⟨hit, hhit, hid⟩ := List.mem_map.mp hid
      rw [← hid] at hchunk
      obtain ⟨m, hm, rfl⟩ := exists_liveMatch hids hchunk
      have hmem : (hit, m) ∈ rankedMatches db driveId ranking := mem_rankedMatches.mpr ⟨hhit, hm⟩
      exact List.mem_map_of_mem (f := matchPath) hmem
  · rw [List.pairwise_map]
    exact hsorted.sublist (firstOfEach_sublist _ _)
  · intro c hc
    obtain ⟨p, hp, rfl⟩ := List.mem_map.mp hc
    have hmem := mem_rankedMatches.mp ((firstOfEach_sublist _ _).subset hp)
    refine ⟨p.1, hmem.1, chunkOf_of_liveMatch hmem.2, rfl, ?_⟩
    intro other hother hchunk
    obtain ⟨m, hm, hpath⟩ := exists_liveMatch hids hchunk
    have hmem' : (other, m) ∈ rankedMatches db driveId ranking :=
      mem_rankedMatches.mpr ⟨hother, hm⟩
    exact firstOfEach_least (fun q => le_refl q.1.distance) hsorted hp hmem' hpath

end Loop

/-- Two files, one with two chunks. -/
def sampleVectorTables : SearchTables :=
  { SearchTables.empty with
    contentChunks :=
      [⟨1, "/a".toList, "d".toList, 0, "one".toList, 0, 1, none, .text⟩,
        ⟨2, "/a".toList, "d".toList, 1, "two".toList, 3, 1, none, .text⟩,
        ⟨3, "/b".toList, "d".toList, 0, [], 0, 0, some 4, .image⟩]
    chunkVectors := [⟨1, [1]⟩, ⟨2, [2]⟩, ⟨3, [3]⟩]
    files := ["/a", "/b"].map (fun path =>
      ⟨⟨path.toList, "d".toList, 3, none, "user".toList, none, 0, 0, false⟩, none, none⟩) }

/-- Both chunks of the first file are nearer than that of the other. -/
def sampleRanking : List (ChunkHit Nat) := [⟨2, 5⟩, ⟨1, 6⟩, ⟨3, 9⟩]

def sampleKnn (params : KnnParams) : List (ChunkHit Nat) :=
  (sampleRanking.filter (fun hit =>
    ScanSelects sampleVectorTables params.driveId params.excludedPaths hit.chunkId)).take params.k

theorem findVectorCandidates_exact_sampleKnn :
  (findVectorCandidates sampleKnn sampleVectorTables "d".toList [7] 2 3).map
      (List.map VectorCandidate.path) = some ["/a".toList, "/b".toList]
  := by
  have hnearest : NearestChunks sampleKnn sampleVectorTables "d".toList [7] sampleRanking :=
    ⟨by decide, by decide, fun _ _ => rfl⟩
  rw [(findVectorCandidates_exact (by decide) hnearest (by decide)).1]
  decide +kernel

end AgentFs

import Mathlib.Data.Rat.Defs
import Mathlib.Algebra.Order.Field.Rat
import Mathlib.Tactic.Linarith
import Mathlib.Tactic.FieldSimp
import Mathlib.Tactic.Positivity
import Mathlib.Tactic.NormNum
import AgentFs.Lib.OrderedMap
import AgentFs.Ops.Content
import AgentFs.Search.Candidates

/-!
# Hybrid search

`search` of `ops/search.ts`: the nearest files and the files with the words of the query are fused
by their ranks.  A number of the code is a rational number here, and the candidates of the two
lists are inputs: those of the vector search are `findVectorCandidates`, those of the keyword
search `ftsQuery` with the pattern of the query.
-/

namespace AgentFs

/-! ### The pattern of a query -/

/-- `query.split(/\s+/).filter(Boolean)`. -/
def queryTerms (query : Text) : List Text :=
  (query.splitOnP (fun c => decide (IsWhiteSpace c))).filter (fun term => term ≠ [])

/-- `term.replaceAll('"', '""')`. -/
def doubleQuotes (term : Text) : Text :=
  term.flatMap (fun c => if c = '"' then ['"', '"'] else [c])

def quoteTerm (term : Text) : Text :=
  '"' :: doubleQuotes term ++ ['"']

def ftsPattern (query : Text) : Text :=
  [' ', 'O', 'R', ' '].intercalate ((queryTerms query).map quoteTerm)

/-- The rest of a string of FTS5, and what follows: a quote is written twice. -/
def readString : Text → Option (Text × Text)
  | '"' :: '"' :: text => (readString text).map (fun read => ('"' :: read.1, read.2))
  | '"' :: text => some ([], text)
  | c :: text => (readString text).map (fun read => (c :: read.1, read.2))
  | [] => none

/-- FTS5 reads the text as strings that are joined by `OR`. -/
inductive ReadsOr : Text → List Text → Prop where
  | one {text phrase : Text} (h : readString text = some (phrase, [])) :
      ReadsOr ('"' :: text) [phrase]
  | or {text phrase rest : Text} {phrases : List Text}
      (h : readString text = some (phrase, ' ' :: 'O' :: 'R' :: ' ' :: rest))
      (hrest : ReadsOr rest phrases) :
      ReadsOr ('"' :: text) (phrase :: phrases)

/-- No character of a term ends its string, unless another quote follows. -/
theorem readString_doubleQuotes (term rest : Text) (hrest : rest.head? ≠ some '"') :
  readString (doubleQuotes term ++ '"' :: rest) = some (term, rest)
  := by
  induction term with
  | nil =>
      cases rest with
      | nil => rfl
      | cons c rest =>
          have hc : c ≠ '"' := fun h => hrest (congrArg some h)
          rw [doubleQuotes, List.flatMap_nil, List.nil_append, readString]
          intro text heq
          injection heq with heq
          exact hc heq
  | cons c term ih =>
      have hcons : doubleQuotes (c :: term) =
          (if c = '"' then ['"', '"'] else [c]) ++ doubleQuotes term := rfl
      rw [hcons]
      by_cases hc : c = '"'
      · subst hc
        rw [if_pos rfl]
        simp only [List.cons_append, List.nil_append]
        rw [readString, ih]
        rfl
      · rw [if_neg hc, List.singleton_append, List.cons_append, readString, ih]
        · rfl
        · rintro text rfl
          exact absurd rfl hc
        · exact hc

theorem readsOr_pattern (terms : List Text) (hterms : terms ≠ []) :
  ∀ phrases, ReadsOr ([' ', 'O', 'R', ' '].intercalate (terms.map quoteTerm)) phrases ↔
    phrases = terms
  := by
  induction terms with
  | nil => exact absurd rfl hterms
  | cons term terms ih =>
      intro phrases
      cases terms with
      | nil =>
          have hread := readString_doubleQuotes term [] (by rintro ⟨⟩)
          have htext : [' ', 'O', 'R', ' '].intercalate ([term].map quoteTerm) =
              '"' :: (doubleQuotes term ++ ['"']) := by
            simp [List.intercalate, quoteTerm]
          rw [htext]
          constructor
          · intro h
            cases h with
            | one h =>
                rw [hread] at h
                cases h
                rfl
            | or h =>
                rw [hread] at h
                cases h
          · rintro rfl
            exact .one hread
      | cons next terms =>
          generalize hrest : [' ', 'O', 'R', ' '].intercalate ((next :: terms).map quoteTerm) = rest
            at ih
          have hread := readString_doubleQuotes term ([' ', 'O', 'R', ' '] ++ rest) (by
            rintro ⟨⟩)
          have htext : [' ', 'O', 'R', ' '].intercalate ((term :: next :: terms).map quoteTerm) =
              '"' :: (doubleQuotes term ++ '"' :: ([' ', 'O', 'R', ' '] ++ rest)) := by
            rw [← hrest]
            simp [List.intercalate, quoteTerm]
          rw [htext]
          have ih' := ih (List.cons_ne_nil _ _)
          constructor
          · intro h
            cases h with
            | one h =>
                rw [hread] at h
                cases h
            | or h hphrases =>
                rw [hread] at h
                cases h
                rw [(ih' _).mp hphrases]
          · rintro rfl
            exact .or hread ((ih' _).mpr rfl)

/-- A result of the keyword search; the snippet is in code units of UTF-16. -/
structure KeywordHit where
  path : Text
  snippet : List Nat
  deriving DecidableEq, Repr

/-- What the fusion has of a file. -/
structure FusedFile where
  score : ℚ
  snippet : List Nat
  ftsHit : Bool
  similarity : Option ℚ
  page : Option Nat
  kind : Option ChunkKind
  author : Option Text
  modifiedAt : Option Nat
  deriving DecidableEq, Repr

structure SearchResultItem where
  path : Text
  score : ℚ
  snippet : List Nat
  page : Option Nat
  kind : Option ChunkKind
  author : Option Text
  modifiedAt : Option Nat
  deriving DecidableEq, Repr

/-- Cosine similarity of two unit vectors from their distance. -/
def similarityFromDistance (distance : ℚ) : ℚ :=
  max (-1) (min 1 (1 - distance * distance / 2))

/-- `1 / (K + rank + 1)`. -/
def rrfScore (rank : Nat) : ℚ :=
  1 / (60 + rank + 1)

def minImageBoostSimilarity : ℚ := 69 / 100

/-- A file that the vector search has found. -/
def vectorFile (rank : Nat) (item : VectorCandidate ℚ) : FusedFile where
  score := rrfScore rank
  snippet := item.snippet
  ftsHit := false
  similarity := some (similarityFromDistance item.distance)
  page := item.page
  kind := some item.kind
  author := some item.author
  modifiedAt := some item.modifiedAt

/-- A file that only the keyword search has found. -/
def keywordFile (rank : Nat) (item : KeywordHit) : FusedFile where
  score := rrfScore rank
  snippet := item.snippet
  ftsHit := true
  similarity := none
  page := none
  kind := some .text
  author := none
  modifiedAt := none

/-- A file of the vector search that the keyword search finds too. -/
def FusedFile.keyword (rank : Nat) (item : KeywordHit) (file : FusedFile) : FusedFile :=
  { file with
    score := file.score + rrfScore rank
    ftsHit := true
    snippet := if item.snippet ≠ [] ∧ file.kind ≠ some .image then item.snippet else file.snippet }

/-- The loop over the results of the vector search, from the given rank on. -/
def mergeVector : Nat → List (VectorCandidate ℚ) → OrderedMap Text FusedFile →
    OrderedMap Text FusedFile
  | _, [], merged => merged
  | rank, item :: items, merged =>
      match merged.get item.path with
      | some file =>
          mergeVector (rank + 1) items
            (merged.set item.path { file with score := file.score + rrfScore rank })
      | none => mergeVector (rank + 1) items (merged.set item.path (vectorFile rank item))

/-- The loop over the results of the keyword search. -/
def mergeKeyword : Nat → List KeywordHit → OrderedMap Text FusedFile → OrderedMap Text FusedFile
  | _, [], merged => merged
  | rank, item :: items, merged =>
      match merged.get item.path with
      | some file => mergeKeyword (rank + 1) items (merged.set item.path (file.keyword rank item))
      | none => mergeKeyword (rank + 1) items (merged.set item.path (keywordFile rank item))

/-- An image without a keyword hit counts its rank for both lists. -/
def FusedFile.boost (file : FusedFile) : FusedFile :=
  if file.kind = some .image ∧ file.ftsHit = false ∧
      file.similarity.getD 0 ≥ minImageBoostSimilarity then
    { file with score := file.score * 2 }
  else file

def searchResult (maxScore : ℚ) (entry : Text × FusedFile) : SearchResultItem where
  path := entry.1
  score := entry.2.score / maxScore
  snippet := entry.2.snippet
  page := entry.2.page
  kind := entry.2.kind
  author := entry.2.author
  modifiedAt := entry.2.modifiedAt

structure HybridAnswer where
  results : List SearchResultItem
  hint : Option Text
  deriving DecidableEq, Repr

/-- The files of both lists with their scores; there is no vector search without a provider. -/
def fusedFiles (vec : Option (List (VectorCandidate ℚ))) (fts : List KeywordHit) :
    OrderedMap Text FusedFile :=
  let merged := mergeKeyword 0 fts (mergeVector 0 (vec.getD []) .empty)
  if vec.isSome then merged.filterMap (fun file => some file.boost) else merged

/-- The highest score: first in every list. -/
def maxScore (vec : Option (List (VectorCandidate ℚ))) : ℚ :=
  (if vec.isSome then 2 else 1) / (60 + 1)

/-- `search`, from the results of both searches. -/
def hybridSearch (query : Text) (limit : Nat) (vec : Option (List (VectorCandidate ℚ)))
    (fts : List KeywordHit) : HybridAnswer :=
  if vec.getD [] = [] ∧ fts = [] then
    ⟨[], some (if vec.isSome then "No results found for \"".toList ++ query ++ "\".".toList
      else ("No embedding provider configured. Set OPENAI_API_KEY, GEMINI_API_KEY, or enable " ++
        "local embeddings for semantic search. Showing keyword results only.").toList)⟩
  else
    ⟨(((fusedFiles vec fts).entries.mergeSort (fun a b => b.2.score ≤ a.2.score)).take limit).map
        (searchResult (maxScore vec)),
      if vec.isSome then none
      else some ("Results are keyword-only. Enable embeddings for better semantic " ++
        "matching.").toList⟩

/-! ### The loops -/

theorem get_mergeVector {items : List (VectorCandidate ℚ)}
    (hnodup : (items.map VectorCandidate.path).Nodup) (rank : Nat)
    (merged : OrderedMap Text FusedFile) (hnew : ∀ item ∈ items, merged.get item.path = none) :
  (∀ i item, items[i]? = some item →
      (mergeVector rank items merged).get item.path = some (vectorFile (rank + i) item)) ∧
    ∀ p, p ∉ items.map VectorCandidate.path →
      (mergeVector rank items merged).get p = merged.get p
  := by
  induction items generalizing rank merged with
  | nil => exact ⟨by rintro i item ⟨⟩, fun _ _ => rfl⟩
  | cons first items ih =>
      obtain ⟨hfirst, hnodup⟩ := List.nodup_cons.mp hnodup
      obtain ⟨hfound, hother⟩ := ih hnodup (rank + 1)
        (merged.set first.path (vectorFile rank first)) (by
          intro item hitem
          rw [OrderedMap.get_set, if_neg]
          · exact hnew item (List.mem_cons_of_mem first hitem)
          · intro hsame
            exact hfirst (hsame ▸ List.mem_map_of_mem hitem))
      unfold mergeVector
      rw [hnew first List.mem_cons_self]
      dsimp only
      constructor
      · intro i item hi
        cases i with
        | zero =>
            rw [List.getElem?_cons_zero, Option.some_inj] at hi
            subst hi
            rw [hother _ hfirst, OrderedMap.get_set, if_pos rfl, Nat.add_zero]
        | succ i =>
            rw [List.getElem?_cons_succ] at hi
            rw [hfound i item hi, Nat.add_assoc, Nat.add_comm 1]
      · intro p hp
        rw [List.map_cons, List.mem_cons, not_or] at hp
        rw [hother p hp.2, OrderedMap.get_set, if_neg hp.1]

/-- What the keyword search makes of the file of a result. -/
def keywordMerged (merged : OrderedMap Text FusedFile) (rank : Nat) (item : KeywordHit) :
    FusedFile :=
  match merged.get item.path with
  | some file => file.keyword rank item
  | none => keywordFile rank item

theorem get_mergeKeyword {items : List KeywordHit}
    (hnodup : (items.map KeywordHit.path).Nodup) (rank : Nat)
    (merged : OrderedMap Text FusedFile) :
  (∀ i item, items[i]? = some item → (mergeKeyword rank items merged).get item.path =
      some (keywordMerged merged (rank + i) item)) ∧
    ∀ p, p ∉ items.map KeywordHit.path → (mergeKeyword rank items merged).get p = merged.get p
  := by
  induction items generalizing rank merged with
  | nil => exact ⟨by rintro i item ⟨⟩, fun _ _ => rfl⟩
  | cons first items ih =>
      obtain ⟨hfirst, hnodup⟩ := List.nodup_cons.mp hnodup
      have hstep : mergeKeyword rank (first :: items) merged = mergeKeyword (rank + 1) items
          (merged.set first.path (keywordMerged merged rank first)) := by
        rw [mergeKeyword, keywordMerged]
        cases merged.get first.path with
        | none => rfl
        | some file => rfl
      obtain ⟨hfound, hother⟩ := ih hnodup (rank + 1)
        (merged.set first.path (keywordMerged merged rank first))
      rw [hstep]
      constructor
      · intro i item hi
        cases i with
        | zero =>
            rw [List.getElem?_cons_zero, Option.some_inj] at hi
            subst hi
            rw [hother _ hfirst, OrderedMap.get_set, if_pos rfl, Nat.add_zero]
        | succ i =>
            rw [List.getElem?_cons_succ] at hi
            have hne : item.path ≠ first.path := by
              intro hsame
              exact hfirst (hsame ▸ List.mem_map_of_mem (List.mem_of_getElem? hi))
            rw [hfound i item hi, keywordMerged, OrderedMap.get_set, if_neg hne, Nat.add_assoc,
              Nat.add_comm 1]
            rfl
      · intro p hp
        rw [List.map_cons, List.mem_cons, not_or] at hp
        rw [hother p hp.2, OrderedMap.get_set, if_neg hp.1]

/-! ### The scores -/

/-- What a list gives a file: the score of its rank. -/
def rankShare (paths : List Text) (p : Text) : ℚ :=
  if p ∈ paths then rrfScore (paths.idxOf p) else 0

/-- The vector search has the file as an image near enough, and no word of the query is in it. -/
def Boosted (items : List (VectorCandidate ℚ)) (fts : List KeywordHit) (p : Text) : Prop :=
  p ∉ fts.map KeywordHit.path ∧ ∃ item ∈ items, item.path = p ∧ item.kind = .image ∧
    minImageBoostSimilarity ≤ similarityFromDistance item.distance

instance (items : List (VectorCandidate ℚ)) (fts : List KeywordHit) (p : Text) :
    Decidable (Boosted items fts p) :=
  inferInstanceAs (Decidable (_ ∧ _))

/-- The sum of what the lists give the file, twice that for a boosted image. -/
def fusedScore (items : List (VectorCandidate ℚ)) (fts : List KeywordHit) (p : Text) : ℚ :=
  (rankShare (items.map VectorCandidate.path) p + rankShare (fts.map KeywordHit.path) p) *
    if Boosted items fts p then 2 else 1

theorem rankShare_of_getElem? {α : Type} {items : List α} {path : α → Text}
    (hnodup : (items.map path).Nodup) {i : Nat} {item : α} (hi : items[i]? = some item) :
  rankShare (items.map path) (path item) = rrfScore i
  := by
  obtain ⟨hlt, hget⟩ := List.getElem?_eq_some_iff.mp hi
  have hlt' : i < (items.map path).length := by
    rw [List.length_map]
    exact hlt
  have hpath : (items.map path)[i] = path item := by
    rw [List.getElem_map, hget]
  unfold rankShare
  rw [if_pos (List.mem_map_of_mem (List.mem_of_getElem? hi)), ← hpath, hnodup.idxOf_getElem]

theorem rankShare_of_not_mem {paths : List Text} {p : Text} (h : p ∉ paths) :
  rankShare paths p = 0
  := if_neg h

theorem exists_of_mem_paths {α : Type} {items : List α} {path : α → Text} {p : Text}
    (h : p ∈ items.map path) :
  ∃ (i : Nat) (item : α), items[i]? = some item ∧ path item = p
  := by
  obtain ⟨item, hitem, rfl⟩ := List.mem_map.mp h
  obtain ⟨i, hi⟩ := List.mem_iff_getElem?.mp hitem
  exact ⟨i, item, hi, rfl⟩

theorem pairwise_mergeSort_score (entries : List (Text × FusedFile)) :
  (entries.mergeSort (fun a b => b.2.score ≤ a.2.score)).Pairwise (fun a b => b.2.score ≤ a.2.score)
  := by
  refine (List.pairwise_mergeSort ?_ ?_ entries).imp (fun h => of_decide_eq_true h)
  · intro a b c hab hbc
    exact decide_eq_true (le_trans (of_decide_eq_true hbc) (of_decide_eq_true hab))
  · intro a b
    rw [Bool.or_eq_true, decide_eq_true_iff, decide_eq_true_iff]
    exact le_total _ _

section

variable {vec : Option (List (VectorCandidate ℚ))} {fts : List KeywordHit}

/-- A file of either list has its fused score. -/
theorem get_fusedFiles (hvec : ((vec.getD []).map VectorCandidate.path).Nodup)
    (hfts : (fts.map KeywordHit.path).Nodup) (p : Text) :
  ((fusedFiles vec fts).get p).map FusedFile.score =
    if p ∈ (vec.getD []).map VectorCandidate.path ∨ p ∈ fts.map KeywordHit.path then
      some (fusedScore (vec.getD []) fts p)
    else none
  := by
  generalize hitems : vec.getD [] = items at *
  obtain ⟨hfoundVec, hotherVec⟩ := get_mergeVector hvec 0 .empty (fun _ _ => rfl)
  obtain ⟨hfoundFts, hotherFts⟩ := get_mergeKeyword hfts 0 (mergeVector 0 items .empty)
  have hget : (fusedFiles vec fts).get p =
      ((mergeKeyword 0 fts (mergeVector 0 items .empty)).get p).map
        (fun file => if vec.isSome then file.boost else file) := by
    unfold fusedFiles
    rw [hitems]
    cases vec with
    | none => simp
    | some items' =>
        simp only [Option.isSome_some, if_true]
        rw [OrderedMap.get_filterMap]
        cases (mergeKeyword 0 fts (mergeVector 0 items .empty)).get p with
        | none => rfl
        | some file => rfl
  rw [hget]
  by_cases hp : p ∈ fts.map KeywordHit.path
  · -- The keyword search finds the file, so that it is not boosted.
    obtain ⟨j, hit, hj, rfl⟩ := exists_of_mem_paths hp
    have hnot : ¬ Boosted items fts hit.path := fun hboosted => hboosted.1 hp
    rw [hfoundFts j hit hj, if_pos (.inr hp), Option.map_some, Option.map_some]
    unfold fusedScore
    rw [if_neg hnot, mul_one, rankShare_of_getElem? hfts hj, Nat.zero_add]
    congr 1
    have hunboosted : ∀ file : FusedFile, file.ftsHit = true →
        (if vec.isSome then file.boost else file).score = file.score := by
      intro file hhit
      split
      · unfold FusedFile.boost
        rw [if_neg]
        rintro ⟨-, hmissed, -⟩
        rw [hhit] at hmissed
        cases hmissed
      · rfl
    unfold keywordMerged
    by_cases hp' : hit.path ∈ items.map VectorCandidate.path
    · obtain ⟨i, item, hi, hsame⟩ := exists_of_mem_paths hp'
      rw [← hsame, hfoundVec i item hi]
      dsimp only
      rw [hunboosted _ rfl, rankShare_of_getElem? hvec hi, Nat.zero_add]
      rfl
    · rw [hotherVec _ hp', OrderedMap.get_empty]
      dsimp only
      rw [hunboosted _ rfl, rankShare_of_not_mem hp', zero_add]
      rfl
  · rw [hotherFts p hp]
    by_cases hp' : p ∈ items.map VectorCandidate.path
    · obtain ⟨i, item, hi, rfl⟩ := exists_of_mem_paths hp'
      have hsome : vec.isSome = true := by
        cases vec with
        | none =>
            rw [← hitems] at hi
            cases hi
        | some _ => rfl
      rw [hfoundVec i item hi, if_pos (.inl hp'), Option.map_some, Option.map_some, Nat.zero_add,
        if_pos hsome]
      unfold fusedScore
      rw [rankShare_of_getElem? hvec hi, rankShare_of_not_mem hp, add_zero]
      congr 1
      unfold FusedFile.boost
      by_cases hboosted : Boosted items fts item.path
      · obtain ⟨-, item', hitem', hsame, hkind, hsimilar⟩ := hboosted
        have heq : item' = item :=
          List.inj_on_of_nodup_map hvec hitem' (List.mem_of_getElem? hi) hsame
        subst heq
        have hboost : (vectorFile i item').kind = some .image ∧ (vectorFile i item').ftsHit = false ∧
            (vectorFile i item').similarity.getD 0 ≥ minImageBoostSimilarity :=
          ⟨congrArg some hkind, rfl, hsimilar⟩
        rw [if_pos hboost, if_pos ⟨hp, item', hitem', rfl, hkind, hsimilar⟩]
        rfl
      · rw [if_neg hboosted, mul_one, if_neg]
        · rfl
        · rintro ⟨hkind, -, hsimilar⟩
          refine hboosted ⟨hp, item, List.mem_of_getElem? hi, rfl, ?_, hsimilar⟩
          exact Option.some_inj.mp hkind
    · rw [hotherVec p hp', if_neg (not_or.mpr ⟨hp', hp⟩)]
      rfl

/-! ### Bounds -/

theorem rrfScore_pos (rank : Nat) :
  0 < rrfScore rank
  := by
  unfold rrfScore
  positivity

/-- No rank counts more than the first. -/
theorem rrfScore_le (rank : Nat) :
  rrfScore rank ≤ 1 / 61
  := by
  unfold rrfScore
  have hrank : (0 : ℚ) ≤ rank := Nat.cast_nonneg rank
  rw [div_le_div_iff₀ (by positivity) (by norm_num)]
  linarith

theorem rrfScore_eq_iff (rank : Nat) :
  rrfScore rank = 1 / 61 ↔ rank = 0
  := by
  unfold rrfScore
  constructor
  · intro h
    have hrank : (60 : ℚ) + rank + 1 ≠ 0 := by positivity
    rw [div_eq_div_iff hrank (by norm_num)] at h
    have hzero : (rank : ℚ) = 0 := by linarith
    exact_mod_cast hzero
  · rintro rfl
    norm_num

theorem rankShare_nonneg (paths : List Text) (p : Text) :
  0 ≤ rankShare paths p
  := by
  unfold rankShare
  split
  · exact le_of_lt (rrfScore_pos _)
  · exact le_refl _

theorem rankShare_pos {paths : List Text} {p : Text} (h : p ∈ paths) :
  0 < rankShare paths p
  := by
  unfold rankShare
  rw [if_pos h]
  exact rrfScore_pos _

theorem rankShare_le (paths : List Text) (p : Text) :
  rankShare paths p ≤ 1 / 61
  := by
  unfold rankShare
  split
  · exact rrfScore_le _
  · norm_num

/-- A list gives the most to its first file, and to no other. -/
theorem rankShare_eq_iff (paths : List Text) (p : Text) :
  rankShare paths p = 1 / 61 ↔ paths.head? = some p
  := by
  unfold rankShare
  cases paths with
  | nil =>
      constructor
      · intro h
        norm_num at h
      · rintro ⟨⟩
  | cons first paths =>
      rw [List.head?_cons, Option.some_inj]
      constructor
      · intro h
        split at h
        · rw [rrfScore_eq_iff, List.idxOf_cons] at h
          by_contra hne
          rw [cond_eq_ite, if_neg (by simpa using hne)] at h
          cases h
        · norm_num at h
      · rintro rfl
        rw [if_pos List.mem_cons_self, List.idxOf_cons_self, rrfScore_eq_iff]

/-- The file is first in every list that can have it. -/
def FirstInAll (vec : Option (List (VectorCandidate ℚ))) (fts : List KeywordHit) (p : Text) :
    Prop :=
  match vec with
  | none => (fts.map KeywordHit.path).head? = some p
  | some items =>
      (items.map VectorCandidate.path).head? = some p ∧
        ((fts.map KeywordHit.path).head? = some p ∨ Boosted items fts p)

/-- The score of a file is positive, and the highest one exactly if the file is first in every
list that can have it. -/
theorem fusedScore_bounds (p : Text)
    (hp : p ∈ (vec.getD []).map VectorCandidate.path ∨ p ∈ fts.map KeywordHit.path) :
  0 < fusedScore (vec.getD []) fts p ∧ fusedScore (vec.getD []) fts p ≤ maxScore vec ∧
    (fusedScore (vec.getD []) fts p = maxScore vec ↔ FirstInAll vec fts p)
  := by
  have hvecLe := rankShare_le ((vec.getD []).map VectorCandidate.path) p
  have hftsLe := rankShare_le (fts.map KeywordHit.path) p
  have hvecNonneg := rankShare_nonneg ((vec.getD []).map VectorCandidate.path) p
  have hftsNonneg := rankShare_nonneg (fts.map KeywordHit.path) p
  have hvecTop := rankShare_eq_iff ((vec.getD []).map VectorCandidate.path) p
  have hftsTop := rankShare_eq_iff (fts.map KeywordHit.path) p
  have hsum : 0 < rankShare ((vec.getD []).map VectorCandidate.path) p +
      rankShare (fts.map KeywordHit.path) p := by
    obtain hp | hp := hp
    · have hpos := rankShare_pos hp
      linarith
    · have hpos := rankShare_pos hp
      linarith
  unfold fusedScore
  cases vec with
  | none =>
      have hnot : ¬ Boosted [] fts p := by
        rintro ⟨-, item, ⟨⟩, -⟩
      have hzero : rankShare (([] : List (VectorCandidate ℚ)).map VectorCandidate.path) p = 0 :=
        rankShare_of_not_mem List.not_mem_nil
      simp only [Option.getD_none] at *
      rw [if_neg hnot, hzero, zero_add, mul_one]
      rw [hzero, zero_add] at hsum
      simp only [maxScore, FirstInAll, Option.isSome_none, Bool.false_eq_true, if_false]
      refine ⟨hsum, ?_, ?_⟩
      · norm_num at hftsLe ⊢
        exact hftsLe
      · rw [← hftsTop]
        norm_num
  | some items =>
      simp only [Option.getD_some, maxScore, FirstInAll, Option.isSome_some, if_true] at *
      by_cases hboosted : Boosted items fts p
      · have hzero := rankShare_of_not_mem hboosted.1
        rw [if_pos hboosted, hzero, add_zero]
        rw [hzero, add_zero] at hsum
        refine ⟨by linarith, by linarith, ?_⟩
        rw [← hvecTop]
        constructor
        · intro h
          exact ⟨by linarith, .inr hboosted⟩
        · rintro ⟨htop, -⟩
          linarith
      · rw [if_neg hboosted, mul_one]
        refine ⟨hsum, by linarith, ?_⟩
        rw [← hvecTop, ← hftsTop]
        constructor
        · intro h
          exact ⟨by linarith, .inl (by linarith)⟩
        · rintro ⟨htop, htop' | htop'⟩
          · linarith
          · exact absurd htop' hboosted

/-! ### The law -/

/-- What a search answers. -/
structure SearchLaw (limit : Nat) (vec : Option (List (VectorCandidate ℚ)))
    (fts : List KeywordHit) (results : List SearchResultItem) : Prop where
  distinct : (results.map SearchResultItem.path).Nodup
  length_le : results.length ≤ limit
  /-- A result is a file of one of the lists, with the score of its ranks. -/
  scored : ∀ result ∈ results, (result.path ∈ (vec.getD []).map VectorCandidate.path ∨
      result.path ∈ fts.map KeywordHit.path) ∧
    result.score = fusedScore (vec.getD []) fts result.path / maxScore vec
  sorted : results.Pairwise (fun result result' => result'.score ≤ result.score)
  /-- A file is left out only for as many others that are as good. -/
  best : ∀ p, p ∈ (vec.getD []).map VectorCandidate.path ∨ p ∈ fts.map KeywordHit.path →
    p ∉ results.map SearchResultItem.path → results.length = limit ∧
      ∀ result ∈ results, fusedScore (vec.getD []) fts p / maxScore vec ≤ result.score
  bounds : ∀ result ∈ results, 0 < result.score ∧ result.score ≤ 1
  /-- A score of 1 says that the file is first in every list that can have it. -/
  top : ∀ result ∈ results, result.score = 1 ↔ FirstInAll vec fts result.path

theorem maxScore_pos (vec : Option (List (VectorCandidate ℚ))) :
  0 < maxScore vec
  := by
  unfold maxScore
  split
  · norm_num
  · norm_num

/-- The results, also when both lists are empty. -/
theorem results_hybridSearch (query : Text) (limit : Nat)
    (vec : Option (List (VectorCandidate ℚ))) (fts : List KeywordHit) :
  (hybridSearch query limit vec fts).results =
    (((fusedFiles vec fts).entries.mergeSort (fun a b => b.2.score ≤ a.2.score)).take limit).map
      (searchResult (maxScore vec))
  := by
  unfold hybridSearch
  split
  case isTrue hempty =>
    have hnone : (fusedFiles vec fts).entries = [] := by
      unfold fusedFiles
      rw [hempty.1, hempty.2]
      split
      · rfl
      · rfl
    rw [hnone, List.mergeSort_nil, List.take_nil, List.map_nil]
  case isFalse => rfl

end

end AgentFs

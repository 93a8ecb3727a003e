import Mathlib.Data.Rat.Defs
import Mathlib.Algebra.Order.Ring.Rat
import Mathlib.Data.Rat.Floor
import AgentFs.Db
import AgentFs.Lib.Split
import AgentFs.Lib.Subsequence

/-!
# Finding files by name

`ops/find.ts`: the words of a query are matched against the segments of a path, as they stand or
with skipped letters.  Texts are of the Basic Multilingual Plane, folded ones too, so that their
characters are the code units the code indexes; the Unicode functions of the runtime are
parameters.
-/

namespace AgentFs

open Subsequence

/-- What `find` uses of Unicode: `normalize("NFD")`, the classes `\\p\x7bMn\x7d` and
`[\\p\x7bL\x7d\\p\x7bN\x7d]`, the two cases, and the order of the locale. -/
structure Unicode where
  nfd : Text → Text
  isMark : Char → Bool
  isWordChar : Char → Bool
  toLowerCase : Text → Text
  toUpperCase : Text → Text
  localeCompare : Text → Text → Ordering

section

variable (u : Unicode)

/-- Decompose, and drop the nonspacing marks. -/
def stripMarks (text : Text) : Text :=
  (u.nfd text).filter (fun c => ¬ u.isMark c)

/-- Lowercase and strip accents. -/
def foldText (text : Text) : Text :=
  (u.toLowerCase (stripMarks u text)).map (fun c => if c = 'ς' then 'σ' else c)

/-- The words of a query. -/
def queryWords (query : Text) : List Text :=
  ((foldText u query).splitOnP (fun c => ¬ u.isWordChar c)).filter (· ≠ [])

/-- A segment of a path: its folded text, and where a word starts. -/
structure Segment where
  text : Text
  starts : Nat → Bool

/-- A capital after a character that is not one. -/
def isHump (plain : Text) (i : Nat) : Bool :=
  match plain[i]?, plain[i - 1]? with
  | some c, some before => u.toLowerCase [c] ≠ [c] ∧ u.toUpperCase [before] ≠ [before]
  | _, _ => false

/-- `plain` keeps its case, and has the length of `text`. -/
def segmentOf (raw : Text) : Segment :=
  let plain := stripMarks u raw
  let text := foldText u plain
  { text := text
    starts := fun i => i < text.length ∧
      (i = 0 ∨ (text[i - 1]?.map u.isWordChar) = some false ∨ isHump u plain i) }

/-- The letters occur in order; `start` is the place after the last one found. -/
def isSubsequenceFrom (text : Text) : List Char → Nat → Bool
  | [], _ => true
  | char :: word, start =>
      match indexFrom text char start with
      | none => false
      | some pos => isSubsequenceFrom text word (pos + 1)

def isSubsequence (word text : Text) : Bool :=
  isSubsequenceFrom text word 0

/-! ### Scores -/

def substringScore : ℚ := 10
def wordStartScore : ℚ := 5
def wholeWordScore : ℚ := 3
def nameWeight : ℚ := 2

/-- The places of the letters after the first, and how many are at word starts and how many right
after the letter before. -/
def matchLetters (seg : Segment) : List Char → (pos starts adjacent : Nat) → Option (Nat × Nat)
  | [], _, starts, adjacent => some (starts, adjacent)
  | char :: word, pos, starts, adjacent =>
      match indexFrom seg.text char (pos + 1) with
      | none => none
      | some next =>
          matchLetters seg word next (if seg.starts next then starts + 1 else starts)
            (if next = pos + 1 then adjacent + 1 else adjacent)

/-- The score of the letters of a word from a word start on. -/
def startScore (word : Text) (seg : Segment) (start : Nat) : Option ℚ :=
  (matchLetters seg word.tail start 1 0).map (fun x => 1 + (4 * x.1 + 4 * x.2) / word.length)

/-- The places of the first letter of a word. -/
def firstLetters (word text : Text) : List Nat :=
  (List.range text.length).filter (fun i => text[i]? = word.head?)

/-- The loop over the places of the first letter. -/
def subsequenceLoop (word : Text) (seg : Segment) : List Nat → ℚ → ℚ
  | [], best => best
  | start :: rest, best =>
      if ¬ seg.starts start then subsequenceLoop word seg rest best
      else
        match startScore word seg start with
        | none => best
        | some score => subsequenceLoop word seg rest (max best score)

def subsequenceScore (word : Text) (seg : Segment) : ℚ :=
  subsequenceLoop word seg (firstLetters word seg.text) 0

/-- The score of a word that stands at `place`. -/
def contiguousScore (word : Text) (seg : Segment) (place : Nat) : ℚ :=
  if seg.starts place then
    let stop := place + word.length
    if stop = seg.text.length ∨ seg.starts stop ∨ (seg.text[stop]?.map u.isWordChar) = some false then
      substringScore + wordStartScore + wholeWordScore
    else substringScore + wordStartScore
  else substringScore

/-- The places where a word stands. -/
def wordPlaces (word text : Text) : List Nat :=
  (List.range (text.length + 1)).filter (fun i => word <+: text.drop i)

def wordScore (word : Text) (seg : Segment) : ℚ :=
  let best := ((wordPlaces word seg.text).map (contiguousScore u word seg)).foldl max 0
  if best ≠ 0 then best else subsequenceScore word seg

/-- The best weighted score of a word in the segments, and whether it stands in one of them. -/
def bestSegment (word : Text) (segments : List Segment) : ℚ × Bool :=
  (segments.zipIdx).foldl (fun x segment =>
    let raw := wordScore u word segment.1
    (max x.1 (raw * if segment.2 + 1 = segments.length then nameWeight else 1),
      x.2 || substringScore ≤ raw)) (0, false)

structure PathScore where
  score : ℚ
  fuzzy : Bool
  deriving DecidableEq

/-- The loop over the words. -/
def scoreWords (segments : List Segment) : List Text → PathScore → Option PathScore
  | [], result => some result
  | word :: words, result =>
      let best := bestSegment u word segments
      if best.1 = 0 then none
      else scoreWords segments words ⟨result.score + best.1, result.fuzzy || !best.2⟩

/-- The segments of a path. -/
def segmentsOf (relativePath : Text) : List Segment :=
  ((relativePath.splitOn '/').filter (· ≠ [])).map (segmentOf u)

def pathScore (words : List Text) (relativePath : Text) : Option PathScore :=
  scoreWords u (segmentsOf u relativePath) words ⟨0, false⟩

/-! ### The operation -/

structure FindMatch where
  path : Text
  size : Nat
  modifiedAt : Nat
  score : ℚ
  deriving DecidableEq

structure FindResult where
  found : List FindMatch
  total : Nat
  deriving DecidableEq

structure FindParams where
  query : Text
  path : Option Text := none
  limit : Option Nat := none

/-- `Math.round(score * 100) / 100`. -/
def roundScore (score : ℚ) : ℚ :=
  ⌊score * 100 + 1 / 2⌋ / 100

/-- The higher score first, then the shorter path, the later change, and the order of the paths. -/
def compareMatches (a b : FindMatch) : Ordering :=
  (compare b.score a.score).then ((compare a.path.length b.path.length).then
    ((compare b.modifiedAt a.modifiedAt).then (u.localeCompare a.path b.path)))

/-- `matches.sort(compareMatches)`. -/
def sortMatches (found : List FindMatch) : List FindMatch :=
  found.mergeSort (fun a b => compareMatches u a b ≠ .gt)

/-- The score of a row, and the match it makes. -/
def matchRow (words : List Text) (startPath : Text) (row : FileRow) : Option (FindMatch × Bool) :=
  (pathScore u words (row.path.drop startPath.length)).map (fun result =>
    (⟨row.path, row.size, row.modifiedAt, roundScore result.score⟩, result.fuzzy))

/-- A row that is in scope and passes the prefilter, with its score. -/
def findRow (words : List Text) (startPath : Text) (row : FileRow) : Option (FindMatch × Bool) :=
  if startPath <+: row.path then
    if words.all (isSubsequence · (foldText u (row.path.drop startPath.length))) then
      matchRow u words startPath row
    else none
  else none

/-- The place below which is searched. -/
def FindParams.startPath (params : FindParams) : Text :=
  if params.path.getD [] ≠ [] then normalizePrefix (params.path.getD []) else ['/']

def find (driveId : Text) (files : List FileRow) (params : FindParams) : FindResult :=
  let words := queryWords u params.query
  if words = [] then ⟨[], 0⟩
  else
    let rows := files.filter (fun row => row.driveId = driveId ∧ row.isDeleted = false)
    let candidates := rows.filterMap (findRow u words params.startPath)
    let exact := (candidates.filter (fun x => ¬ x.2)).map (·.1)
    let fuzzy := (candidates.filter (fun x => x.2)).map (·.1)
    let found := if exact ≠ [] then exact else fuzzy
    ⟨(sortMatches u found).take (params.limit.getD 50), found.length⟩

/-- The live rows of the drive in scope whose path has every word of the query, as far as they
are fuzzy or not. -/
def acceptedRows (driveId : Text) (files : List FileRow) (params : FindParams) (fuzzy : Bool) :
    List FindMatch :=
  if queryWords u params.query = [] then []
  else
    ((files.filter (fun row => row.driveId = driveId ∧ row.isDeleted = false ∧
        params.startPath <+: row.path)).filterMap
      (matchRow u (queryWords u params.query) params.startPath)).filterMap
        (fun x => if x.2 = fuzzy then some x.1 else none)

end

/-! ### Folding -/

/-- What the code relies on: a path is decomposed and lowercased segment by segment, and folding
what is decomposed and stripped already changes no letter and no digit. -/
structure Unicode.Lawful (u : Unicode) : Prop where
  nfd_slash : ∀ a b, u.nfd (a ++ '/' :: b) = u.nfd a ++ '/' :: u.nfd b
  mark_slash : u.isMark '/' = false
  lower_slash : ∀ a b, u.toLowerCase (a ++ '/' :: b) = u.toLowerCase a ++ '/' :: u.toLowerCase b
  fold_strip : ∀ a, (foldText u (stripMarks u a)).filter u.isWordChar =
    (foldText u a).filter u.isWordChar

namespace Unicode.Lawful

variable {u : Unicode}

theorem foldText_slash (hu : u.Lawful) (a b : Text) :
  foldText u (a ++ '/' :: b) = foldText u a ++ '/' :: foldText u b
  := by
  unfold foldText stripMarks
  rw [hu.nfd_slash, List.filter_append, List.filter_cons_of_pos (by simp [hu.mark_slash]),
    hu.lower_slash, List.map_append, List.map_cons, if_neg (by decide)]

/-- The folded text of a path has that of each of its segments in it. -/
theorem foldText_infix (hu : u.Lawful) {path raw : Text} (hraw : raw ∈ path.splitOn '/') :
  foldText u raw <:+: foldText u path
  := by
  have hall : ∀ segments : List Text, ∀ raw ∈ segments,
      foldText u raw <:+: foldText u (['/'].intercalate segments) := by
    intro segments
    induction segments with
    | nil => exact nofun
    | cons segment segments ih =>
        intro raw hraw
        cases segments with
        | nil =>
            rewrite [List.mem_singleton.mp hraw, List.intercalate_singleton]
            apply List.infix_refl
        | cons next segments =>
            have hjoin : ['/'].intercalate (segment :: next :: segments) =
                segment ++ '/' :: ['/'].intercalate (next :: segments) := by
              rw [List.intercalate_cons_cons, List.append_assoc]
              rfl
            rw [hjoin, hu.foldText_slash]
            rcases List.mem_cons.mp hraw with rfl | hraw
            · exact List.infix_append' [] _ _
            · apply (ih raw hraw).trans
              exact ((List.suffix_cons '/' _).trans (List.suffix_append _ _)).isInfix
  have hpath := hall _ raw hraw
  rwa [List.intercalate_splitOn] at hpath

end Unicode.Lawful

/-! ### The prefilter -/

theorem isSubsequenceFrom_iff {text : Text} {word : List Char} {start : Nat} :
  isSubsequenceFrom text word start = true ↔ word.Sublist (text.drop start)
  := by
  induction word generalizing start with
  | nil => simp [isSubsequenceFrom]
  | cons char word ih =>
      rw [cons_sublist_drop_iff]
      unfold isSubsequenceFrom
      cases hindex : indexFrom text char start with
      | none => simp
      | some pos => simp [ih]

theorem isSubsequence_iff {word text : Text} :
  isSubsequence word text = true ↔ word.Sublist text
  := by
  unfold isSubsequence
  rw [isSubsequenceFrom_iff, List.drop_zero]

/-- The letters of a word can be matched exactly when they occur in order. -/
theorem isSome_matchLetters {seg : Segment} {word : List Char} {pos starts adjacent : Nat} :
  (matchLetters seg word pos starts adjacent).isSome ↔ word.Sublist (seg.text.drop (pos + 1))
  := by
  induction word generalizing pos starts adjacent with
  | nil => simp [matchLetters]
  | cons char word ih =>
      rw [cons_sublist_drop_iff]
      unfold matchLetters
      cases hindex : indexFrom seg.text char (pos + 1) with
      | none => simp
      | some next => simp [ih]

theorem isSome_startScore {word : Text} {seg : Segment} {start : Nat} :
  (startScore word seg start).isSome ↔ word.tail.Sublist (seg.text.drop (start + 1))
  := by
  unfold startScore
  rw [Option.isSome_map, isSome_matchLetters]

/-- The best of a list of scores is one of them or the first best, and no score is above it. -/
theorem foldl_max_spec (scores : List ℚ) (best : ℚ) :
  scores.foldl max best ∈ best :: scores ∧ ∀ score ∈ best :: scores, score ≤ scores.foldl max best
  :=
  List.max?_eq_some_iff.mp List.max?_cons'

/-- The scores of a word from the places of a segment that start a word. -/
def StartScores (word : Text) (seg : Segment) : Set ℚ :=
  {score | ∃ start, seg.text[start]? = word.head? ∧ seg.starts start ∧
    startScore word seg start = some score}

/-- A word with a score from some place has its letters in order. -/
theorem sublist_of_mem_startScores {word : Text} {seg : Segment} {score : ℚ}
    (h : score ∈ StartScores word seg) :
  word.Sublist seg.text
  := by
  obtain ⟨start, hfirst, -, hscore⟩ := h
  have htail := isSome_startScore.mp (Option.isSome_iff_exists.mpr ⟨score, hscore⟩)
  cases word with
  | nil => apply List.nil_sublist
  | cons char word =>
      obtain ⟨hlt, hchar⟩ := List.getElem?_eq_some_iff.mp hfirst
      have hdrop : (char :: word).Sublist (seg.text.drop start) := by
        rw [List.drop_eq_getElem_cons hlt, hchar]
        exact htail.cons_cons char
      exact hdrop.trans (List.drop_sublist start seg.text)

/-- A later place leaves fewer letters to match. -/
theorem startScore_eq_none {word : Text} {seg : Segment} {start later : Nat}
    (h : startScore word seg start = none) (hlater : start ≤ later) :
  startScore word seg later = none
  := by
  rw [← Option.not_isSome_iff_eq_none, isSome_startScore] at h ⊢
  intro hsome
  apply h
  apply hsome.trans
  have hdrop : seg.text.drop (later + 1) = (seg.text.drop (start + 1)).drop (later - start) := by
    rw [List.drop_drop]
    congr 1
    omega
  rw [hdrop]
  apply List.drop_sublist

/-- The loop takes the best of the scores from the places that start a word: the early return
leaves none out. -/
theorem subsequenceLoop_eq {word : Text} {seg : Segment} {places : List Nat} {best : ℚ}
    (h : places.Pairwise (· < ·)) :
  subsequenceLoop word seg places best =
    ((places.filter seg.starts).filterMap (startScore word seg)).foldl max best
  := by
  induction places generalizing best with
  | nil => rfl
  | cons start places ih =>
      obtain ⟨hlt, hrest⟩ := List.pairwise_cons.mp h
      cases hstart : seg.starts start with
      | false => rw [subsequenceLoop, if_pos (by simp [hstart]), ih hrest,
          List.filter_cons_of_neg (by simp [hstart])]
      | true =>
          rw [subsequenceLoop, if_neg (by simp [hstart]), List.filter_cons_of_pos hstart]
          cases hscore : startScore word seg start with
          | some score => rw [List.filterMap_cons_some hscore, List.foldl_cons, ← ih hrest]
          | none =>
              have hnone : (places.filter seg.starts).filterMap (startScore word seg) = [] := by
                rw [List.filterMap_eq_nil_iff]
                intro later hlater
                have hplace := hlt later (List.mem_of_mem_filter hlater)
                exact startScore_eq_none hscore hplace.le
              rw [List.filterMap_cons_none hscore, hnone]
              rfl

theorem mem_firstLetters {word text : Text} (hword : word ≠ []) {start : Nat} :
  start ∈ firstLetters word text ↔ text[start]? = word.head?
  := by
  unfold firstLetters
  rw [List.mem_filter, List.mem_range, decide_eq_true_iff, and_iff_right_iff_imp]
  intro hfirst
  rw [List.head?_eq_some_head hword] at hfirst
  exact (List.getElem?_eq_some_iff.mp hfirst).1

/-- The score is the greatest of those from the places that start a word, or zero without any. -/
theorem subsequenceScore_spec {word : Text} (hword : word ≠ []) (seg : Segment) :
  (∀ score ∈ StartScores word seg, score ≤ subsequenceScore word seg) ∧
    (subsequenceScore word seg ∈ StartScores word seg ∨ subsequenceScore word seg = 0)
  := by
  have hmem : ∀ score, score ∈ StartScores word seg ↔
      score ∈ ((firstLetters word seg.text).filter seg.starts).filterMap (startScore word seg) := by
    intro score
    simp only [StartScores, Set.mem_ofPred_eq, List.mem_filterMap, List.mem_filter,
      mem_firstLetters hword, and_assoc]
  have heq : subsequenceScore word seg =
      (((firstLetters word seg.text).filter seg.starts).filterMap (startScore word seg)).foldl
        max 0 :=
    subsequenceLoop_eq (List.pairwise_lt_range.filter _)
  obtain ⟨hbest, hle⟩ := foldl_max_spec
    (((firstLetters word seg.text).filter seg.starts).filterMap (startScore word seg)) 0
  rw [← heq] at hbest hle
  constructor
  · intro score hscore
    exact hle score (List.mem_cons_of_mem 0 ((hmem score).mp hscore))
  · rw [hmem]
    exact (List.mem_cons.mp hbest).symm

/-! ### The scores of a word -/

/-- No more letters are at word starts or right after the one before than there are. -/
theorem matchLetters_le {seg : Segment} {word : List Char} {pos starts adjacent : Nat}
    {found : Nat × Nat} (h : matchLetters seg word pos starts adjacent = some found) :
  found.1 ≤ starts + word.length ∧ found.2 ≤ adjacent + word.length
  := by
  induction word generalizing pos starts adjacent with
  | nil =>
      cases h
      exact ⟨le_rfl, le_rfl⟩
  | cons char word ih =>
      unfold matchLetters at h
      cases hindex : indexFrom seg.text char (pos + 1) with
      | none =>
          rw [hindex] at h
          cases h
      | some next =>
          rw [hindex] at h
          obtain ⟨hstarts, hadjacent⟩ := ih h
          rw [List.length_cons]
          constructor
          · split at hstarts <;> omega
          · split at hadjacent <;> omega

/-- A score with skipped letters is positive and stays below that of a substring. -/
theorem startScore_bounds {word : Text} (hword : word ≠ []) {seg : Segment} {start : Nat} {score : ℚ}
    (h : startScore word seg start = some score) :
  0 < score ∧ score < substringScore
  := by
  obtain ⟨found, hfound, rfl⟩ := Option.map_eq_some_iff.mp h
  obtain ⟨hstarts, hadjacent⟩ := matchLetters_le hfound
  have hlength := List.length_pos_iff.mpr hword
  rw [List.length_tail] at hstarts hadjacent
  have hpos : (0 : ℚ) < word.length := by exact_mod_cast hlength
  have hsum : 4 * (found.1 : ℚ) + 4 * found.2 ≤ 8 * word.length := by
    have hnat : 4 * found.1 + 4 * found.2 ≤ 8 * word.length := by omega
    exact_mod_cast hnat
  constructor
  · positivity
  · have hquotient : (4 * (found.1 : ℚ) + 4 * found.2) / word.length ≤ 8 := by
      rwa [div_le_iff₀ hpos]
    unfold substringScore
    linarith

theorem subsequenceScore_lt {word : Text} (hword : word ≠ []) {seg : Segment} :
  subsequenceScore word seg < substringScore
  := by
  rcases (subsequenceScore_spec hword seg).2 with ⟨start, -, -, hscore⟩ | hzero
  · exact (startScore_bounds hword hscore).2
  · rw [hzero]
    decide

theorem substringScore_le_contiguousScore {u : Unicode} {word : Text} {seg : Segment}
    {place : Nat} :
  substringScore ≤ contiguousScore u word seg place
  := by
  unfold contiguousScore
  dsimp only
  split
  · split <;> norm_num [substringScore, wordStartScore, wholeWordScore]
  · exact le_rfl

theorem exists_wordPlace {word text : Text} :
  (∃ place, place ∈ wordPlaces word text) ↔ word <:+: text
  := by
  unfold wordPlaces
  simp only [List.mem_filter, List.mem_range, decide_eq_true_iff]
  constructor
  · rintro ⟨place, -, hprefix⟩
    exact hprefix.isInfix.trans (List.drop_suffix place text).isInfix
  · rintro ⟨before, after, rfl⟩
    refine ⟨before.length, by simp only [List.length_append]; omega, ?_⟩
    rw [List.append_assoc, List.drop_left]
    apply List.prefix_append

/-- A word that stands in a segment scores as a substring at least. -/
theorem substringScore_le_wordScore {u : Unicode} {word : Text} {seg : Segment}
    (h : word <:+: seg.text) :
  substringScore ≤ wordScore u word seg
  := by
  obtain ⟨place, hplace⟩ := exists_wordPlace.mpr h
  have hbest : substringScore ≤
      ((wordPlaces word seg.text).map (contiguousScore u word seg)).foldl max 0 :=
    substringScore_le_contiguousScore.trans
      ((foldl_max_spec _ _).2 _ (List.mem_cons_of_mem 0 (List.mem_map_of_mem hplace)))
  have hpos : (0 : ℚ) < substringScore := by decide
  unfold wordScore
  rw [if_pos (hpos.trans_le hbest).ne']
  exact hbest

/-- Another word scores by its letters. -/
theorem wordScore_eq_subsequenceScore {u : Unicode} {word : Text} {seg : Segment}
    (h : ¬ word <:+: seg.text) :
  wordScore u word seg = subsequenceScore word seg
  := by
  have hnone : wordPlaces word seg.text = [] := by
    rw [List.eq_nil_iff_forall_not_mem]
    intro place hplace
    exact h (exists_wordPlace.mp ⟨place, hplace⟩)
  unfold wordScore
  rw [hnone]
  rfl

/-- Only words with their letters in order score. -/
theorem sublist_of_wordScore {u : Unicode} {word : Text} (hword : word ≠ []) {seg : Segment}
    (h : wordScore u word seg ≠ 0) :
  word.Sublist seg.text
  := by
  by_cases hinfix : word <:+: seg.text
  · exact hinfix.sublist
  · rw [wordScore_eq_subsequenceScore hinfix] at h
    rcases (subsequenceScore_spec hword seg).2 with hscore | hzero
    · exact sublist_of_mem_startScores hscore
    · exact absurd hzero h

/-! ### The prefilter -/

/-- A word with a best score has a score in some segment. -/
theorem exists_wordScore {u : Unicode} {word : Text} {segments : List Segment}
    (h : (bestSegment u word segments).1 ≠ 0) :
  ∃ seg ∈ segments, wordScore u word seg ≠ 0
  := by
  by_contra hnone
  push Not at hnone
  apply h
  have hfold : ∀ (rest : List (Segment × Nat)) (best : ℚ × Bool),
      (∀ x ∈ rest, wordScore u word x.1 = 0) → best.1 = 0 →
        (rest.foldl (fun x segment =>
          let raw := wordScore u word segment.1
          (max x.1 (raw * if segment.2 + 1 = segments.length then nameWeight else 1),
            x.2 || substringScore ≤ raw)) best).1 = 0 := by
    intro rest
    induction rest with
    | nil => exact fun best _ hbest => hbest
    | cons x rest ih =>
        intro best hzero hbest
        apply ih
        · exact fun y hy => hzero y (List.mem_cons_of_mem x hy)
        · simp [hzero x List.mem_cons_self, hbest]
  apply hfold
  · intro x hx
    exact hnone x.1 (List.fst_mem_of_mem_zipIdx hx)
  · rfl

theorem bestSegment_ne_zero {u : Unicode} {segments : List Segment} {words : List Text}
    {result : PathScore} (h : (scoreWords u segments words result).isSome) {word : Text}
    (hword : word ∈ words) :
  (bestSegment u word segments).1 ≠ 0
  := by
  induction words generalizing result with
  | nil => cases hword
  | cons next words ih =>
      unfold scoreWords at h
      dsimp only at h
      split at h
      · cases h
      · rename_i hbest
        rcases List.mem_cons.mp hword with rfl | hword
        · exact hbest
        · exact ih h hword

theorem queryWords_spec {u : Unicode} {query word : Text} (h : word ∈ queryWords u query) :
  word ≠ [] ∧ ∀ c ∈ word, u.isWordChar c = true
  := by
  obtain ⟨hsplit, hne⟩ := List.mem_filter.mp h
  constructor
  · exact of_decide_eq_true hne
  · intro c hc
    simpa using List.not_of_mem_splitOnP hsplit hc

/-- The letters of a word that are in order in a segment are in order in the folded path. -/
theorem Unicode.Lawful.sublist_path {u : Unicode} (hu : u.Lawful) {word raw path : Text}
    (hword : ∀ c ∈ word, u.isWordChar c = true) (hraw : raw ∈ path.splitOn '/')
    (h : word.Sublist (segmentOf u raw).text) :
  word.Sublist (foldText u path)
  := by
  have hfilter : word.filter u.isWordChar = word := List.filter_eq_self.mpr hword
  have hsegment := h.filter u.isWordChar
  rw [hfilter, segmentOf, hu.fold_strip] at hsegment
  exact hsegment.trans (List.filter_sublist.trans (hu.foldText_infix hraw).sublist)

/-- The prefilter keeps every path that has a score. -/
theorem Unicode.Lawful.isSubsequence_of_pathScore {u : Unicode} (hu : u.Lawful) {query path : Text}
    (h : (pathScore u (queryWords u query) path).isSome) {word : Text}
    (hword : word ∈ queryWords u query) :
  isSubsequence word (foldText u path) = true
  := by
  obtain ⟨hne, hchars⟩ := queryWords_spec hword
  obtain ⟨seg, hseg, hscore⟩ := exists_wordScore (bestSegment_ne_zero h hword)
  obtain ⟨raw, hraw, rfl⟩ := List.mem_map.mp hseg
  rw [isSubsequence_iff]
  apply hu.sublist_path hchars (List.mem_of_mem_filter hraw)
  exact sublist_of_wordScore hne hscore

/-! ### Matches without skipped letters -/

theorem substringScore_le_wordScore_iff {u : Unicode} {word : Text} (hword : word ≠ [])
    {seg : Segment} :
  substringScore ≤ wordScore u word seg ↔ word <:+: seg.text
  := by
  constructor
  · contrapose
    intro hinfix
    rw [wordScore_eq_subsequenceScore hinfix]
    exact (subsequenceScore_lt hword).not_ge
  · apply substringScore_le_wordScore

/-- A word is contiguous when it stands in some segment. -/
theorem bestSegment_contiguous {u : Unicode} {word : Text} (hword : word ≠ [])
    {segments : List Segment} :
  (bestSegment u word segments).2 = true ↔ ∃ seg ∈ segments, word <:+: seg.text
  := by
  have hfold : ∀ (rest : List (Segment × Nat)) (best : ℚ × Bool),
      (rest.foldl (fun x segment =>
        let raw := wordScore u word segment.1
        (max x.1 (raw * if segment.2 + 1 = segments.length then nameWeight else 1),
          x.2 || substringScore ≤ raw)) best).2 = true ↔
        best.2 = true ∨ ∃ seg ∈ rest.map (·.1), word <:+: seg.text := by
    intro rest
    induction rest with
    | nil => simp
    | cons x rest ih =>
        intro best
        rw [List.foldl_cons, ih]
        simp [substringScore_le_wordScore_iff hword, or_assoc]
  have hsegments := hfold segments.zipIdx (0, false)
  rw [List.zipIdx_map_fst, or_iff_right Bool.false_ne_true] at hsegments
  exact hsegments

theorem scoreWords_fuzzy {u : Unicode} {segments : List Segment} {words : List Text}
    {result found : PathScore} (h : scoreWords u segments words result = some found) :
  found.fuzzy = false ↔
    result.fuzzy = false ∧ ∀ word ∈ words, (bestSegment u word segments).2 = true
  := by
  induction words generalizing result with
  | nil =>
      cases h
      simp
  | cons word words ih =>
      unfold scoreWords at h
      dsimp only at h
      split at h
      · cases h
      · rw [ih h]
        simp [and_assoc]

/-- A path matches without skipped letters when each word stands in one of its segments. -/
theorem pathScore_fuzzy {u : Unicode} {query path : Text} {found : PathScore}
    (h : pathScore u (queryWords u query) path = some found) :
  found.fuzzy = false ↔
    ∀ word ∈ queryWords u query, ∃ seg ∈ segmentsOf u path, word <:+: seg.text
  := by
  rw [scoreWords_fuzzy h, and_iff_right rfl]
  apply forall₂_congr
  intro word hword
  exact bestSegment_contiguous (queryWords_spec hword).1

/-! ### The result -/

/-- The prefilter takes no row away. -/
theorem Unicode.Lawful.findRow_eq {u : Unicode} (hu : u.Lawful) {query startPath : Text}
    {row : FileRow} (h : startPath <+: row.path) :
  findRow u (queryWords u query) startPath row = matchRow u (queryWords u query) startPath row
  := by
  unfold findRow
  rw [if_pos h]
  split
  · rfl
  · rename_i hfilter
    symm
    unfold matchRow
    rw [Option.map_eq_none_iff, ← Option.not_isSome_iff_eq_none]
    intro hscore
    apply hfilter
    rw [List.all_eq_true]
    intro word hword
    exact hu.isSubsequence_of_pathScore hscore hword

theorem Unicode.Lawful.filterMap_findRow {u : Unicode} (hu : u.Lawful) {query startPath : Text}
    (driveId : Text) (files : List FileRow) :
  (files.filter (fun row => row.driveId = driveId ∧ row.isDeleted = false)).filterMap
      (findRow u (queryWords u query) startPath) =
    (files.filter (fun row => row.driveId = driveId ∧ row.isDeleted = false ∧
      startPath <+: row.path)).filterMap (matchRow u (queryWords u query) startPath)
  := by
  rw [List.filterMap_filter, List.filterMap_filter]
  apply List.filterMap_congr
  intro row _
  by_cases hprefix : startPath <+: row.path
  · simp [hu.findRow_eq hprefix, hprefix]
  · simp [findRow, hprefix]

/-- The accepted rows of one kind among the matches. -/
theorem filterMap_fuzzy (candidates : List (FindMatch × Bool)) :
  candidates.filterMap (fun x => if x.2 = false then some x.1 else none) =
      (candidates.filter (fun x => ¬ x.2)).map (·.1) ∧
    candidates.filterMap (fun x => if x.2 = true then some x.1 else none) =
      (candidates.filter (fun x => x.2)).map (·.1)
  := by
  induction candidates with
  | nil => exact ⟨rfl, rfl⟩
  | cons x candidates ih =>
      obtain ⟨found, fuzzy⟩ := x
      cases fuzzy with
      | false => simpa using ih
      | true => simpa using ih

/-- The Unicode functions on ASCII texts. -/
def asciiUnicode : Unicode where
  nfd := id
  isMark := fun _ => false
  isWordChar := Char.isAlphanum
  toLowerCase := List.map Char.toLower
  toUpperCase := List.map Char.toUpper
  localeCompare := fun a b => if a = b then .eq else if a < b then .lt else .gt

theorem asciiUnicode_lawful :
  asciiUnicode.Lawful
  where
  nfd_slash := fun _ _ => rfl
  mark_slash := rfl
  lower_slash := by
    intro a b
    rw [show asciiUnicode.toLowerCase = List.map Char.toLower from rfl, List.map_append,
      List.map_cons]
    rfl
  fold_strip := by
    intro a
    have hstrip : stripMarks asciiUnicode a = a := List.filter_eq_self.mpr (fun _ _ => rfl)
    rw [hstrip]

def sampleFile (path : Text) : FileRow where
  path := path
  driveId := "d".toList
  size := 3
  contentType := none
  author := "u".toList
  currentVersionId := none
  createdAt := 1
  modifiedAt := 1
  isDeleted := false

/-- The letters of `zphr` are in order in the name of one of two files. -/
def sampleFind : FindResult :=
  find asciiUnicode "d".toList
    [sampleFile "/docs/report.md".toList, sampleFile "/docs/Zephyr.md".toList]
    { query := "zphr".toList }

end AgentFs

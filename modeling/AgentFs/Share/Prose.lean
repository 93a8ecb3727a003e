import Mathlib.Data.List.Basic
import Mathlib.Data.List.TakeWhile
import Mathlib.Logic.Function.Basic
import AgentFs.Ops.Content

/-!
# The prose of a markdown document

`splitFences`, `mapProse` and `codeSpans` of `share/markdown.ts`: what is cut out of the body of a
document before it is parsed leaves fenced code and code spans alone.
-/

namespace AgentFs

/-! ### Fenced code -/

/-- `lines.join("\n")`. -/
def joinedLines (lines : List Text) : Text :=
  ['\n'].intercalate lines

/-- The fence of a line that opens fenced code. -/
def fenceOpen (line : Text) : Option Text :=
  let indent := line.takeWhile (· = ' ')
  let rest := line.drop indent.length
  if 3 < indent.length then none
  else if 3 ≤ (rest.takeWhile (· = '`')).length then some (rest.takeWhile (· = '`'))
  else if 3 ≤ (rest.takeWhile (· = '~')).length then some (rest.takeWhile (· = '~'))
  else none

/-- Whether a line closes the code that a fence has opened. -/
def fenceClose (fence line : Text) : Bool :=
  (trim line).length ≥ fence.length &&
    trim line = List.replicate (trim line).length (fence.headD '`')

structure FenceChunk where
  code : Bool
  text : Text
  deriving DecidableEq, Repr

/-- `flush`. -/
def flushChunk (code : Bool) (current : List Text) : List FenceChunk :=
  if current = [] then [] else [⟨code, joinedLines current⟩]

/-- The loop of `splitFences`, inside the code of a fence or outside. -/
def splitFencesFrom : Option Text → List Text → List Text → List FenceChunk
  | fence, current, [] => flushChunk fence.isSome current
  | none, current, line :: lines =>
      match fenceOpen line with
      | some opener => flushChunk false current ++ splitFencesFrom (some opener) [line] lines
      | none => splitFencesFrom none (current ++ [line]) lines
  | some fence, current, line :: lines =>
      if fenceClose fence line then
        flushChunk true (current ++ [line]) ++ splitFencesFrom none [] lines
      else splitFencesFrom (some fence) (current ++ [line]) lines

def splitFences (body : Text) : List FenceChunk :=
  splitFencesFrom none [] (body.splitOn '\n')

/-! ### Code spans -/

/-- A run of backticks that is as long as it can be. -/
structure BacktickRun where
  start : Nat
  len : Nat
  deriving DecidableEq, Repr

/-- The runs of a text at a position, after so many backticks of a run. -/
def backtickRunsFrom : Nat → Nat → Text → List BacktickRun
  | pos, len, [] => if 0 < len then [⟨pos - len, len⟩] else []
  | pos, len, c :: text =>
      if c = '`' then backtickRunsFrom (pos + 1) (len + 1) text
      else
        (if 0 < len then [⟨pos - len, len⟩] else []) ++ backtickRunsFrom (pos + 1) 0 text

/-- The matches of one or more backticks. -/
def backtickRuns (text : Text) : List BacktickRun :=
  backtickRunsFrom 0 0 text

/-- The loop that fills `byLen`, from a number of a run on. -/
def byLenFrom : Nat → List BacktickRun → (Nat → List Nat) → Nat → List Nat
  | _, [], byLen => byLen
  | i, run :: runs, byLen =>
      byLenFrom (i + 1) runs (Function.update byLen run.len (byLen run.len ++ [i]))

/-- The numbers of the runs of a length. -/
def byLen (runs : List BacktickRun) : Nat → List Nat :=
  byLenFrom 0 runs (fun _ => [])

/-- The inner loop of `codeSpans`, from a cursor on to the first number after `i`. -/
def advanceCursor (list : List Nat) (i p : Nat) : Nat :=
  p + ((list.drop p).takeWhile (· ≤ i)).length

/-- The loop of `codeSpans`, of which there are at most `fuel` rounds. -/
def codeSpansLoop (runs : List BacktickRun) : Nat → Nat → (Nat → Nat) → List (Nat × Nat)
  | 0, _, _ => []
  | fuel + 1, i, cursor =>
      match runs[i]? with
      | none => []
      | some run =>
          let p := advanceCursor (byLen runs run.len) i (cursor run.len)
          let cursor := Function.update cursor run.len p
          match (byLen runs run.len)[p]? with
          | none => codeSpansLoop runs fuel (i + 1) cursor
          | some close =>
              (run.start, ((runs[close]?).map (·.start)).getD 0 + run.len) ::
                codeSpansLoop runs fuel (close + 1) cursor

def codeSpans (text : Text) : List (Nat × Nat) :=
  codeSpansLoop (backtickRuns text) (backtickRuns text).length 0 (fun _ => 0)

/-- `text.slice(start, stop)`. -/
def sliceText (text : Text) (start stop : Nat) : Text :=
  (text.drop start).take (stop - start)

/-- The text of a prose chunk from `last` on, with a function applied between the code spans. -/
def mapSpans (fn : Text → Text) (text : Text) : Nat → List (Nat × Nat) → Text
  | last, [] => fn (text.drop last)
  | last, (start, stop) :: spans =>
      fn (sliceText text last start) ++ sliceText text start stop ++ mapSpans fn text stop spans

/-- Apply `fn` to prose only: fenced code and inline code spans pass through. -/
def mapProse (body : Text) (fn : Text → Text) : Text :=
  joinedLines ((splitFences body).map (fun chunk =>
    if chunk.code then chunk.text else mapSpans fn chunk.text 0 (codeSpans chunk.text)))

/-! ### The naive rule -/

/-- A backtick run is closed by the next run of the same length; without one it is literal. -/
def naiveSpans : List BacktickRun → List (Nat × Nat)
  | [] => []
  | run :: runs =>
      match _h : runs.dropWhile (fun other => other.len ≠ run.len) with
      | [] => naiveSpans runs
      | close :: rest => (run.start, close.start + run.len) :: naiveSpans rest
  termination_by runs => runs.length
  decreasing_by
    · exact Nat.lt_succ_self _
    · have hle := (List.dropWhile_suffix (l := runs)
        (fun other : BacktickRun => decide (other.len ≠ run.len))).length_le
      rw [_h, List.length_cons] at hle
      rw [List.length_cons]
      omega

theorem naiveSpans_cons (run : BacktickRun) (runs : List BacktickRun) :
  naiveSpans (run :: runs) =
    match runs.dropWhile (fun other => other.len ≠ run.len) with
    | [] => naiveSpans runs
    | close :: rest => (run.start, close.start + run.len) :: naiveSpans rest
  := by
  rw [naiveSpans]
  split
  case h_1 h => rw [h]
  case h_2 close rest h => rw [h]

/-- The numbers of the runs of a length, from a number on. -/
def lenIndices (len : Nat) : Nat → List BacktickRun → List Nat
  | _, [] => []
  | i, run :: runs =>
      if run.len = len then i :: lenIndices len (i + 1) runs else lenIndices len (i + 1) runs

theorem byLenFrom_eq (len i : Nat) (runs : List BacktickRun) (start : Nat → List Nat) :
  byLenFrom i runs start len = start len ++ lenIndices len i runs
  := by
  induction runs generalizing i start with
  | nil => exact (List.append_nil _).symm
  | cons run runs ih =>
    rw [byLenFrom, lenIndices, ih]
    by_cases h : run.len = len
    · rw [h, Function.update_self, if_pos rfl, List.append_assoc, List.singleton_append]
    · rw [Function.update_of_ne (Ne.symm h), if_neg h]

theorem byLen_eq (len : Nat) (runs : List BacktickRun) :
  byLen runs len = lenIndices len 0 runs
  := by
  rw [byLen, byLenFrom_eq, List.nil_append]

theorem le_of_mem_lenIndices {len i k : Nat} {runs : List BacktickRun}
    (h : k ∈ lenIndices len i runs) :
  i ≤ k
  := by
  induction runs generalizing i with
  | nil => cases h
  | cons run runs ih =>
    rw [lenIndices] at h
    split at h
    case isTrue =>
      obtain rfl | h := List.mem_cons.mp h
      · exact Nat.le_refl _
      · exact Nat.le_of_succ_le (ih h)
    case isFalse => exact Nat.le_of_succ_le (ih h)

/-- The numbers from a place on are the numbers of the runs from there on. -/
theorem dropWhile_lenIndices (len i j : Nat) (runs : List BacktickRun) :
  (lenIndices len i runs).dropWhile (· < i + j) = lenIndices len (i + j) (runs.drop j)
  := by
  induction runs generalizing i j with
  | nil =>
    rw [List.drop_nil]
    rfl
  | cons run runs ih =>
    cases j with
    | zero =>
      cases hlist : lenIndices len i (run :: runs) with
      | nil => simp [hlist]
      | cons k list =>
        have hle : i ≤ k := le_of_mem_lenIndices (hlist ▸ List.mem_cons_self)
        rw [List.dropWhile_cons_of_neg (by simpa using hle), ← hlist]
        rfl
    | succ j =>
      have hnext := ih (i + 1) j
      rw [Nat.add_right_comm, Nat.add_assoc] at hnext
      rw [lenIndices, List.drop_succ_cons]
      split
      case isTrue =>
        rw [List.dropWhile_cons_of_pos (by simp)]
        exact hnext
      case isFalse => exact hnext

/-- The first number of a length is that of the first run of the length. -/
theorem lenIndices_cases (len i : Nat) (runs : List BacktickRun) :
  (lenIndices len i runs = [] ∧ runs.dropWhile (fun other => other.len ≠ len) = []) ∨
  ∃ j close, (lenIndices len i runs).head? = some (i + j) ∧ runs[j]? = some close ∧
    runs.dropWhile (fun other => other.len ≠ len) = close :: runs.drop (j + 1)
  := by
  induction runs generalizing i with
  | nil => exact .inl ⟨rfl, rfl⟩
  | cons run runs ih =>
    rw [lenIndices]
    by_cases h : run.len = len
    · right
      refine ⟨0, run, ?_, rfl, ?_⟩
      · rw [if_pos h]
        rfl
      · rw [List.dropWhile_cons_of_neg (by simpa using h)]
        rfl
    · rw [if_neg h, List.dropWhile_cons_of_pos (by simpa using h)]
      obtain ⟨hlist, hdrop⟩ | ⟨j, close, hlist, hget, hdrop⟩ := ih (i + 1)
      · exact .inl ⟨hlist, hdrop⟩
      · right
        refine ⟨j + 1, close, ?_, hget, hdrop⟩
        rw [hlist, Nat.add_assoc, Nat.add_comm 1 j]

theorem take_takeWhile {α : Type} (p : α → Bool) (list : List α) :
  list.take (list.takeWhile p).length = list.takeWhile p
  := by
  have htake := congrArg (List.take (list.takeWhile p).length)
    (List.takeWhile_append_dropWhile (p := p) (l := list))
  rw [List.take_left] at htake
  exact htake.symm

theorem drop_advanceCursor (list : List Nat) (i p : Nat) :
  list.drop (advanceCursor list i p) = (list.drop p).dropWhile (· ≤ i)
  := by
  have hsplit := List.takeWhile_append_dropWhile (p := fun k => decide (k ≤ i)) (l := list.drop p)
  have hdrop := congrArg
    (List.drop ((list.drop p).takeWhile (fun k => decide (k ≤ i))).length) hsplit
  rw [List.drop_left, List.drop_drop] at hdrop
  exact hdrop.symm

/-- The cursors point behind runs that are done only. -/
def CursorsBehind (runs : List BacktickRun) (cursor : Nat → Nat) (i : Nat) : Prop :=
  ∀ len, ∀ k ∈ (lenIndices len 0 runs).take (cursor len), k < i

theorem CursorsBehind.mono {runs : List BacktickRun} {cursor : Nat → Nat} {i j : Nat}
    (h : CursorsBehind runs cursor i) (hle : i ≤ j) :
  CursorsBehind runs cursor j
  := fun len k hk => (h len k hk).trans_le hle

/-- From a cursor behind the run, the inner loop finds the next run of the same length. -/
theorem CursorsBehind.drop_advance {runs : List BacktickRun} {cursor : Nat → Nat} {i : Nat}
    (h : CursorsBehind runs cursor i) (len : Nat) :
  (byLen runs len).drop (advanceCursor (byLen runs len) i (cursor len)) =
    lenIndices len (i + 1) (runs.drop (i + 1))
  := by
  have hbehind : ∀ k ∈ (lenIndices len 0 runs).take (cursor len), decide (k < i + 1) = true := by
    intro k hk
    exact decide_eq_true ((h len k hk).trans (Nat.lt_succ_self i))
  have hnext := dropWhile_lenIndices len 0 (i + 1) runs
  rw [← List.take_append_drop (cursor len) (lenIndices len 0 runs), Nat.zero_add,
    List.dropWhile_append_of_pos hbehind] at hnext
  rw [byLen_eq, drop_advanceCursor, ← hnext]
  simp only [Nat.lt_succ_iff]

theorem CursorsBehind.update {runs : List BacktickRun} {cursor : Nat → Nat} {i : Nat}
    (h : CursorsBehind runs cursor i) (len : Nat) :
  CursorsBehind runs
    (Function.update cursor len (advanceCursor (byLen runs len) i (cursor len))) (i + 1)
  := by
  intro other k hk
  by_cases heq : other = len
  · subst heq
    rw [Function.update_self, advanceCursor, byLen_eq, List.take_add, List.mem_append] at hk
    obtain hk | hk := hk
    · exact (h other k hk).trans (Nat.lt_succ_self i)
    · rw [take_takeWhile] at hk
      simpa [Nat.lt_succ_iff] using List.mem_takeWhile_imp hk
  · rw [Function.update_of_ne heq] at hk
    exact (h other k hk).trans (Nat.lt_succ_self i)

theorem codeSpansLoop_eq {runs : List BacktickRun} {fuel i : Nat} {cursor : Nat → Nat}
    (h : CursorsBehind runs cursor i) (hfuel : runs.length ≤ i + fuel) :
  codeSpansLoop runs fuel i cursor = naiveSpans (runs.drop i)
  := by
  induction fuel generalizing i cursor with
  | zero =>
    rw [List.drop_of_length_le (i := i) hfuel, naiveSpans]
    rfl
  | succ fuel ih =>
    rw [codeSpansLoop]
    cases hrun : runs[i]? with
    | none =>
      rw [List.drop_of_length_le (List.getElem?_eq_none_iff.mp hrun), naiveSpans]
    | some run =>
      obtain ⟨hlt, rfl⟩ := List.getElem?_eq_some_iff.mp hrun
      have hdrop := h.drop_advance runs[i].len
      have hupdate := h.update runs[i].len
      have hhead := congrArg List.head? hdrop
      rw [List.head?_drop] at hhead
      simp only [hhead]
      rw [List.drop_eq_getElem_cons hlt, naiveSpans_cons]
      obtain ⟨hlist, hnone⟩ | ⟨j, close, hlist, hclose, hsome⟩ :=
        lenIndices_cases runs[i].len (i + 1) (runs.drop (i + 1))
      · rw [hlist, hnone]
        exact ih hupdate (by omega)
      · rw [List.getElem?_drop] at hclose
        rw [hlist, hsome]
        simp only [hclose, Option.map_some, Option.getD_some]
        rw [List.drop_drop, ih (hupdate.mono (by omega)) (by omega)]
        rw [Nat.add_assoc (i + 1) j 1]

/-- The linear algorithm finds the spans of the naive rule. -/
theorem codeSpans_eq (text : Text) :
  codeSpans text = naiveSpans (backtickRuns text)
  := by
  have hbehind : CursorsBehind (backtickRuns text) (fun _ => 0) 0 := by
    intro len k hk
    rw [List.take_zero] at hk
    cases hk
  rw [codeSpans, codeSpansLoop_eq hbehind (Nat.zero_add _).ge, List.drop_zero]

/-! ### Order of the spans -/

/-- Runs one after the other, from a position on. -/
def RunsFrom : Nat → List BacktickRun → Prop
  | _, [] => True
  | pos, run :: runs => pos ≤ run.start ∧ RunsFrom (run.start + run.len) runs

/-- Spans one after the other, from a position on. -/
def SpansFrom : Nat → List (Nat × Nat) → Prop
  | _, [] => True
  | pos, (start, stop) :: spans => pos ≤ start ∧ start ≤ stop ∧ SpansFrom stop spans

theorem RunsFrom.mono {pos pos' : Nat} {runs : List BacktickRun} (h : RunsFrom pos runs)
    (hle : pos' ≤ pos) :
  RunsFrom pos' runs
  := by
  cases runs with
  | nil => trivial
  | cons run runs => exact ⟨hle.trans h.1, h.2⟩

theorem RunsFrom.tail {pos : Nat} {run : BacktickRun} {runs : List BacktickRun}
    (h : RunsFrom pos (run :: runs)) :
  RunsFrom pos runs
  := h.2.mono (h.1.trans (Nat.le_add_right _ _))

theorem RunsFrom.dropWhile {pos : Nat} {runs : List BacktickRun} (h : RunsFrom pos runs)
    (p : BacktickRun → Bool) :
  RunsFrom pos (runs.dropWhile p)
  := by
  induction runs with
  | nil => exact h
  | cons run runs ih =>
    rw [List.dropWhile_cons]
    split
    case isTrue => exact ih h.tail
    case isFalse => exact h

/-- A run that ends at a position, and the runs from there on. -/
theorem RunsFrom.append {pos len : Nat} (h : len ≤ pos) {runs : List BacktickRun}
    (hruns : RunsFrom pos runs) :
  RunsFrom (pos - len) ((if 0 < len then [⟨pos - len, len⟩] else []) ++ runs)
  := by
  split
  case isTrue =>
    refine ⟨Nat.le_refl _, ?_⟩
    rw [Nat.sub_add_cancel h]
    exact hruns
  case isFalse => exact hruns.mono (Nat.sub_le _ _)

theorem runsFrom_backtickRunsFrom {pos len : Nat} (text : Text) (h : len ≤ pos) :
  RunsFrom (pos - len) (backtickRunsFrom pos len text)
  := by
  induction text generalizing pos len with
  | nil =>
    have hlast := RunsFrom.append h (show RunsFrom pos [] from trivial)
    rw [List.append_nil] at hlast
    exact hlast
  | cons c text ih =>
    rw [backtickRunsFrom]
    split
    case isTrue =>
      have hmore := ih (Nat.succ_le_succ h)
      rw [Nat.succ_sub_succ] at hmore
      exact hmore
    case isFalse =>
      apply RunsFrom.append h
      exact (ih (Nat.zero_le (pos + 1))).mono (Nat.le_succ pos)

theorem RunsFrom.naiveSpans {pos : Nat} {runs : List BacktickRun} (h : RunsFrom pos runs) :
  SpansFrom pos (naiveSpans runs)
  := by
  induction runs using naiveSpans.induct generalizing pos with
  | case1 =>
    rw [AgentFs.naiveSpans]
    trivial
  | case2 run runs hnone ih =>
    rw [naiveSpans_cons, hnone]
    exact ih h.tail
  | case3 run runs close rest hsome ih =>
    have hdrop := h.2.dropWhile (fun other => other.len ≠ run.len)
    rw [hsome] at hdrop
    have hlen : close.len = run.len := by
      have hhead := List.head?_dropWhile_not (fun other => decide (other.len ≠ run.len)) runs
      rw [hsome] at hhead
      simpa using hhead
    rw [naiveSpans_cons, hsome]
    refine ⟨h.1, ?_, ?_⟩
    · have hle := hdrop.1
      omega
    · rw [← hlen]
      exact ih hdrop.2

theorem spansFrom_codeSpans (text : Text) :
  SpansFrom 0 (codeSpans text)
  := by
  rw [codeSpans_eq]
  exact RunsFrom.naiveSpans (runsFrom_backtickRunsFrom text (Nat.zero_le 0))

/-- The identity changes no prose. -/
theorem SpansFrom.mapSpans_id {pos : Nat} {spans : List (Nat × Nat)} (h : SpansFrom pos spans)
    (text : Text) :
  mapSpans id text pos spans = text.drop pos
  := by
  induction spans generalizing pos with
  | nil => rfl
  | cons span spans ih =>
    obtain ⟨start, stop⟩ := span
    obtain ⟨hstart, hstop, hrest⟩ := h
    rw [mapSpans, ih hrest, id, List.append_assoc, sliceText, sliceText]
    obtain ⟨i, rfl⟩ := Nat.exists_eq_add_of_le hstart
    obtain ⟨j, rfl⟩ := Nat.exists_eq_add_of_le hstop
    rw [Nat.add_sub_cancel_left, Nat.add_sub_cancel_left, ← List.drop_drop (j := pos + i),
      List.take_append_drop, ← List.drop_drop (j := pos), List.take_append_drop]

/-! ### Blocks of lines -/

structure LineBlock where
  code : Bool
  lines : List Text
  deriving DecidableEq, Repr

def LineBlock.chunk (block : LineBlock) : FenceChunk :=
  ⟨block.code, joinedLines block.lines⟩

/-- The blocks of lines.  Fenced code reaches from a line that opens it to the next line that
closes it, or to the end. -/
inductive FencedBlocks : List Text → List LineBlock → Prop where
  | done : FencedBlocks [] []
  | prose {lines rest : List Text} {blocks : List LineBlock} (hne : lines ≠ [])
      (hplain : ∀ line ∈ lines, fenceOpen line = none)
      (hrest : ∀ line ∈ rest.head?, fenceOpen line ≠ none) (h : FencedBlocks rest blocks) :
      FencedBlocks (lines ++ rest) (⟨false, lines⟩ :: blocks)
  | closed {first fence last : Text} {inside rest : List Text} {blocks : List LineBlock}
      (hopen : fenceOpen first = some fence)
      (hinside : ∀ line ∈ inside, fenceClose fence line = false)
      (hclose : fenceClose fence last = true) (h : FencedBlocks rest blocks) :
      FencedBlocks (first :: (inside ++ last :: rest))
        (⟨true, first :: (inside ++ [last])⟩ :: blocks)
  | unclosed {first fence : Text} {inside : List Text} (hopen : fenceOpen first = some fence)
      (hinside : ∀ line ∈ inside, fenceClose fence line = false) :
      FencedBlocks (first :: inside) [⟨true, first :: inside⟩]

/-- The loop, outside of fenced code and inside. -/
theorem splitFencesFrom_spec (lines : List Text) :
  (∀ current, (∀ line ∈ current, fenceOpen line = none) →
    ∃ blocks, FencedBlocks (current ++ lines) blocks ∧
      splitFencesFrom none current lines = blocks.map LineBlock.chunk) ∧
  (∀ first fence inside, fenceOpen first = some fence →
    (∀ line ∈ inside, fenceClose fence line = false) →
    ∃ blocks, FencedBlocks (first :: (inside ++ lines)) blocks ∧
      splitFencesFrom (some fence) (first :: inside) lines = blocks.map LineBlock.chunk)
  := by
  induction lines with
  | nil =>
    constructor
    · intro current hplain
      by_cases hne : current = []
      · subst hne
        exact ⟨[], .done, rfl⟩
      · refine ⟨[⟨false, current⟩], .prose hne hplain (fun line h => nomatch h) .done, ?_⟩
        rw [splitFencesFrom, flushChunk, if_neg hne]
        rfl
    · intro first fence inside hopen hinside
      rw [List.append_nil]
      exact ⟨[⟨true, first :: inside⟩], .unclosed hopen hinside, rfl⟩
  | cons line lines ih =>
    constructor
    · intro current hplain
      rw [splitFencesFrom]
      cases hopen : fenceOpen line with
      | none =>
        have hplain : ∀ other ∈ current ++ [line], fenceOpen other = none := by
          intro other hother
          obtain hother | hother := List.mem_append.mp hother
          · exact hplain other hother
          · rw [List.mem_singleton.mp hother]
            exact hopen
        obtain ⟨blocks, hblocks, heq⟩ := ih.1 (current ++ [line]) hplain
        rw [List.append_assoc] at hblocks
        exact ⟨blocks, hblocks, heq⟩
      | some fence =>
        obtain ⟨blocks, hblocks, heq⟩ := ih.2 line fence [] hopen (fun line h => nomatch h)
        simp only [heq]
        by_cases hne : current = []
        · subst hne
          exact ⟨blocks, hblocks, rfl⟩
        · refine ⟨⟨false, current⟩ :: blocks, .prose hne hplain ?_ hblocks, ?_⟩
          · intro other hother
            obtain rfl : line = other := Option.some.inj hother
            rw [hopen]
            exact Option.some_ne_none fence
          · rw [flushChunk, if_neg hne]
            rfl
    · intro first fence inside hopen hinside
      rw [splitFencesFrom]
      cases hclose : fenceClose fence line with
      | true =>
        obtain ⟨blocks, hblocks, heq⟩ := ih.1 [] (fun line h => nomatch h)
        refine ⟨_, .closed hopen hinside hclose hblocks, ?_⟩
        rw [if_pos rfl, heq]
        rfl
      | false =>
        have hinside : ∀ other ∈ inside ++ [line], fenceClose fence other = false := by
          intro other hother
          obtain hother | hother := List.mem_append.mp hother
          · exact hinside other hother
          · rw [List.mem_singleton.mp hother]
            exact hclose
        obtain ⟨blocks, hblocks, heq⟩ := ih.2 first fence (inside ++ [line]) hopen hinside
        rw [List.append_assoc] at hblocks
        refine ⟨blocks, hblocks, ?_⟩
        rw [if_neg Bool.false_ne_true]
        exact heq

theorem splitFences_spec (body : Text) :
  ∃ blocks, FencedBlocks (body.splitOn '\n') blocks ∧
    splitFences body = blocks.map LineBlock.chunk
  := (splitFencesFrom_spec (body.splitOn '\n')).1 [] (fun _ h => nomatch h)

theorem joinedLines_cons (line : Text) {lines : List Text} (h : lines ≠ []) :
  joinedLines (line :: lines) = line ++ '\n' :: joinedLines lines
  := by
  rw [joinedLines, List.intercalate_cons_of_ne_nil h, List.append_assoc]
  rfl

theorem joinedLines_append {lines rest : List Text} (hlines : lines ≠ []) (hrest : rest ≠ []) :
  joinedLines (lines ++ rest) = joinedLines lines ++ '\n' :: joinedLines rest
  := by
  induction lines with
  | nil => exact absurd rfl hlines
  | cons line lines ih =>
    cases lines with
    | nil =>
      rw [List.singleton_append, joinedLines_cons line hrest]
      simp only [joinedLines, List.intercalate_singleton]
    | cons second lines =>
      rw [List.cons_append, joinedLines_cons line (List.append_ne_nil_of_left_ne_nil
        (List.cons_ne_nil second lines) rest), ih (List.cons_ne_nil _ _),
        joinedLines_cons line (List.cons_ne_nil _ _), List.append_assoc]
      rfl

/-- A block in front of others. -/
theorem joinedLines_block {lines rest : List Text} {texts : List Text} (hlines : lines ≠ [])
    (hnil : texts = [] ↔ rest = []) (h : joinedLines texts = joinedLines rest) :
  joinedLines (joinedLines lines :: texts) = joinedLines (lines ++ rest)
  := by
  by_cases hrest : rest = []
  · rw [hrest, hnil.mpr hrest, List.append_nil]
    exact List.intercalate_singleton
  · rw [joinedLines_cons _ (mt hnil.mp hrest), h, joinedLines_append hlines hrest]

theorem FencedBlocks.eq_nil_iff {lines : List Text} {blocks : List LineBlock}
    (h : FencedBlocks lines blocks) :
  blocks = [] ↔ lines = []
  := by
  cases h with
  | done => exact iff_of_true rfl rfl
  | prose hne hplain hrest h => simp [hne]
  | closed hopen hinside hclose h => simp
  | unclosed hopen hinside => simp

/-- The texts of the blocks are the text of the lines. -/
theorem FencedBlocks.joinedLines_eq {lines : List Text} {blocks : List LineBlock}
    (h : FencedBlocks lines blocks) :
  joinedLines (blocks.map (fun block => joinedLines block.lines)) = joinedLines lines
  := by
  induction h with
  | done => rfl
  | prose hne hplain hrest h ih =>
    exact joinedLines_block hne (List.map_eq_nil_iff.trans h.eq_nil_iff) ih
  | @closed first fence last inside rest blocks hopen hinside hclose h ih =>
    have hblock := joinedLines_block (List.cons_ne_nil first (inside ++ [last]))
      (List.map_eq_nil_iff.trans h.eq_nil_iff) ih
    rw [List.cons_append, List.append_assoc, List.singleton_append] at hblock
    exact hblock
  | unclosed hopen hinside => exact List.intercalate_singleton

/-! ### What is kept -/

/-- A piece of the body of a document. -/
inductive ProsePiece where
  | fenced (text : Text)
  | span (text : Text)
  /-- The line end between two blocks. -/
  | lineEnd
  | prose (text : Text)
  deriving DecidableEq, Repr

/-- The text of a piece, with a function applied to prose only. -/
def ProsePiece.apply (fn : Text → Text) : ProsePiece → Text
  | fenced text => text
  | span text => text
  | lineEnd => ['\n']
  | prose text => fn text

/-- The pieces of a text from `last` on. -/
def spanPieces (text : Text) : Nat → List (Nat × Nat) → List ProsePiece
  | last, [] => [.prose (text.drop last)]
  | last, (start, stop) :: spans =>
      .prose (sliceText text last start) :: .span (sliceText text start stop) ::
        spanPieces text stop spans

/-- The pieces of a block, whose code spans are those of the naive rule. -/
def LineBlock.pieces (block : LineBlock) : List ProsePiece :=
  if block.code then [.fenced (joinedLines block.lines)]
  else
    spanPieces (joinedLines block.lines) 0 (naiveSpans (backtickRuns (joinedLines block.lines)))

theorem mapSpans_eq (fn : Text → Text) (text : Text) (last : Nat) (spans : List (Nat × Nat)) :
  mapSpans fn text last spans = (spanPieces text last spans).flatMap (ProsePiece.apply fn)
  := by
  induction spans generalizing last with
  | nil => exact (List.append_nil _).symm
  | cons span spans ih =>
    rw [mapSpans, spanPieces, List.flatMap_cons, List.flatMap_cons, ← ih, List.append_assoc]
    rfl

theorem LineBlock.apply_pieces (block : LineBlock) (fn : Text → Text) :
  (if block.code then joinedLines block.lines
    else mapSpans fn (joinedLines block.lines) 0 (codeSpans (joinedLines block.lines))) =
    block.pieces.flatMap (ProsePiece.apply fn)
  := by
  rw [LineBlock.pieces, codeSpans_eq]
  split
  case isTrue => exact (List.append_nil _).symm
  case isFalse => exact mapSpans_eq fn _ 0 _

theorem flatMap_intercalate {α β : Type} (g : α → List β) (sep : List α) (ls : List (List α)) :
  (sep.intercalate ls).flatMap g = (sep.flatMap g).intercalate (ls.map (List.flatMap g))
  := by
  induction ls with
  | nil => rfl
  | cons l ls ih =>
    cases ls with
    | nil => rw [List.map_singleton, List.intercalate_singleton, List.intercalate_singleton]
    | cons second ls =>
      rw [List.intercalate_cons_cons, List.flatMap_append, List.flatMap_append, ih]
      simp only [List.map_cons, List.intercalate_cons_cons]

/-- Code spans are those of the naive rule, and a function is applied between them and between
the blocks of fenced code only. -/
theorem prose_law :
  (∀ text, codeSpans text = naiveSpans (backtickRuns text)) ∧
  ∀ body, mapProse body id = body ∧
    ∃ blocks, FencedBlocks (body.splitOn '\n') blocks ∧ ∀ fn, mapProse body fn =
      ([.lineEnd].intercalate (blocks.map LineBlock.pieces)).flatMap (ProsePiece.apply fn)
  := by
  refine ⟨codeSpans_eq, fun body => ?_⟩
  obtain ⟨blocks, hblocks, hsplit⟩ := splitFences_spec body
  refine ⟨?_, blocks, hblocks, fun fn => ?_⟩
  · have hmap : ∀ chunk : FenceChunk, (if chunk.code then chunk.text else
        mapSpans id chunk.text 0 (codeSpans chunk.text)) = chunk.text := by
      intro chunk
      rw [(spansFrom_codeSpans chunk.text).mapSpans_id, List.drop_zero, ite_self]
    simp only [mapProse, hmap, hsplit, List.map_map]
    exact hblocks.joinedLines_eq.trans (List.intercalate_splitOn '\n')
  · rw [mapProse, hsplit, flatMap_intercalate, List.map_map, List.map_map, joinedLines]
    congr 1
    apply List.map_congr_left
    intro block _
    exact block.apply_pieces fn

/-- The fence inside of the list item is no fence, and the spans of the last line are found. -/
example :
    mapProse "a\n```\nb\n````\n  * ```\n`` c ` d `` e `".toList (fun _ => ['#']) =
      "#\n```\nb\n````\n#`` c ` d ``#".toList := by
  decide

end AgentFs

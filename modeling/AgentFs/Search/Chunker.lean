import Mathlib.Data.List.TakeWhile
import Mathlib.Data.List.TakeDrop
import Mathlib.Data.List.Forall2
import AgentFs.Lib.RegExp

/-!
# Chunks of text

`segments` and `fallbackChunk` of `search/chunker.ts`, and `chunkPages` of `search/pipeline.ts`.
The loops are `while` loops; out of fuel they have no result.
-/

namespace AgentFs.Chunker

open RegExp

/-! ### Segments -/

/-- `content.lastIndexOf(pattern)`. -/
def lastIndexOf (pattern : List CodeUnit) : List CodeUnit → Option Nat
  | [] => if pattern = [] then some 0 else none
  | c :: rest =>
      match lastIndexOf pattern rest with
      | some i => some (i + 1)
      | none => if pattern <+: c :: rest then some 0 else none

def isHighSurrogate (code : CodeUnit) : Bool :=
  code ≥ 0xD800 && code ≤ 0xDBFF

def isLowSurrogate (code : CodeUnit) : Bool :=
  code ≥ 0xDC00 && code ≤ 0xDFFF

/-- The end of the segment from `start`. -/
def segmentEnd (content : List CodeUnit) (size start : Nat) : Nat :=
  let stop := min (start + size) content.length
  if stop < content.length then
    match lastIndexOf [codeUnit '\n'] (content.take stop) with
    | some lineBreak =>
        if 2 * lineBreak ≥ 2 * start + size then lineBreak + 1
        else if (content[stop - 1]?).any isHighSurrogate then stop - 1
        else stop
    | none => if (content[stop - 1]?).any isHighSurrogate then stop - 1 else stop
  else stop

/-- The loop of `segments`. -/
def segmentsLoop (content : List CodeUnit) (size : Nat) : Nat → Nat → Option (List (Nat × Nat))
  | 0, start => if start < content.length then none else some []
  | fuel + 1, start =>
      if start < content.length then
        (segmentsLoop content size fuel (segmentEnd content size start)).map
          ((start, segmentEnd content size start) :: ·)
      else some []

/-- `[start, end)` ranges of about `size` characters, cut after a line break when one is near;
`size` is positive. -/
def segments (content : List CodeUnit) (size : Nat) : Option (List (Nat × Nat)) :=
  segmentsLoop content size content.length 0

/-! ### Chunks -/

structure Chunk where
  content : List CodeUnit
  charOffset : Nat
  tokenCount : Nat
  deriving DecidableEq, Repr

/-- `CHUNK_CHARS`. -/
def chunkChars : Nat := 2000

def chunkOverlap : Nat := 512

/-- The text of the chunk from `offset`. -/
def chunkText (content : List CodeUnit) (offset : Nat) : List CodeUnit :=
  let chunk := (content.drop offset).take chunkChars
  if offset + chunkChars < content.length then
    match lastIndexOf [codeUnit '\n', codeUnit '\n'] chunk with
    | some lastParagraph => if 2 * lastParagraph > chunkChars then chunk.take lastParagraph else chunk
    | none => chunk
  else chunk

def Chunk.ofText (chunk : List CodeUnit) (offset : Nat) : Chunk :=
  ⟨chunk, offset, (chunk.length + 3) / 4⟩

/-- The offset after a chunk, which overlaps the chunk if that is progress. -/
def Chunk.next (chunk : Chunk) : Nat :=
  if chunk.content.length ≤ chunkOverlap then chunk.charOffset + chunk.content.length
  else chunk.charOffset + (chunk.content.length - chunkOverlap)

/-- The loop of `fallbackChunk`. -/
def fallbackLoop (content : List CodeUnit) : Nat → Nat → Option (List Chunk)
  | 0, offset => if offset < content.length then none else some []
  | fuel + 1, offset =>
      if offset < content.length then
        let chunk := Chunk.ofText (chunkText content offset) offset
        (fallbackLoop content fuel chunk.next).map (chunk :: ·)
      else some []

def fallbackChunk (content : List CodeUnit) : Option (List Chunk) :=
  if content.length = 0 then some []
  else if content.length ≤ chunkChars then some [.ofText content 0]
  else fallbackLoop content content.length 0

/-! ### Pages -/

/-- The `offset` of `chunkPages`. -/
def Chunk.pageOffset (chunk : Chunk) : Nat :=
  chunk.charOffset + (chunk.content.length - (chunk.content.dropWhile isSpace).length)

/-- The inner loop of `chunkPages`. -/
def pageWalk (pageStarts : List Nat) (offset : Nat) : Nat → Nat → Nat
  | 0, pageIndex => pageIndex
  | fuel + 1, pageIndex =>
      if (pageStarts[pageIndex + 1]?).any (· ≤ offset) then
        pageWalk pageStarts offset fuel (pageIndex + 1)
      else pageIndex

/-- The loop of `chunkPages` over the chunks. -/
def chunkPagesFrom (pageStarts : List Nat) : Nat → List Chunk → List Nat
  | _, [] => []
  | pageIndex, chunk :: chunks =>
      let pageIndex := pageWalk pageStarts chunk.pageOffset pageStarts.length pageIndex
      (pageIndex + 1) :: chunkPagesFrom pageStarts pageIndex chunks

/-- Maps each chunk's first non-whitespace character to its page. -/
def chunkPages (chunks : List Chunk) (pageStarts : List Nat) : List Nat :=
  chunkPagesFrom pageStarts 0 chunks

/-! ### Partitions -/

/-- A cut at `i` that falls between the two halves of a surrogate pair. -/
def CutsPair (content : List CodeUnit) (i : Nat) : Prop :=
  0 < i ∧ (content[i - 1]?).any isHighSurrogate = true ∧ (content[i]?).any isLowSurrogate = true

/-- Non-empty ranges, each from the end of the one before, between two positions. -/
inductive Partition : Nat → List (Nat × Nat) → Nat → Prop where
  | nil (n : Nat) : Partition n [] n
  | cons {start mid stop : Nat} {ranges : List (Nat × Nat)} (h : start < mid)
      (rest : Partition mid ranges stop) : Partition start ((start, mid) :: ranges) stop

theorem prefix_of_lastIndexOf {pattern text : List CodeUnit} {i : Nat}
    (h : lastIndexOf pattern text = some i) :
  pattern <+: text.drop i
  := by
  induction text generalizing i with
  | nil =>
    rw [lastIndexOf, Option.ite_none_right_eq_some] at h
    rw [h.1]
    exact List.nil_prefix
  | cons c rest ih =>
    rw [lastIndexOf] at h
    cases hrest : lastIndexOf pattern rest with
    | some j =>
      rw [hrest] at h
      obtain rfl : j + 1 = i := Option.some.inj h
      exact ih hrest
    | none =>
      rw [hrest] at h
      simp only [Option.ite_none_right_eq_some, Option.some.injEq] at h
      obtain ⟨hfront, rfl⟩ := h
      exact hfront

theorem lastIndexOf_add_length_le {pattern text : List CodeUnit} {i : Nat}
    (h : lastIndexOf pattern text = some i) (hpattern : pattern ≠ []) :
  i + pattern.length ≤ text.length
  := by
  have hle := (prefix_of_lastIndexOf h).length_le
  have hpos := List.length_pos_of_ne_nil hpattern
  rw [List.length_drop] at hle
  omega

/-- A high surrogate is not a low surrogate. -/
theorem not_isLowSurrogate {code : CodeUnit} (h : isHighSurrogate code = true) :
  isLowSurrogate code = false
  := by
  simp only [isHighSurrogate, Bool.and_eq_true, decide_eq_true_eq, UInt16.le_iff_toNat_le] at h
  simp only [isLowSurrogate, Bool.and_eq_false_iff, decide_eq_false_iff_not,
    UInt16.le_iff_toNat_le]
  left
  have hhigh : (0xDBFF : CodeUnit).toNat < (0xDC00 : CodeUnit).toNat := by decide
  omega

/-- A cut before a high surrogate, or after anything else, divides no pair. -/
theorem not_cutsPair_stepBack (content : List CodeUnit) (stop : Nat) :
  ¬ CutsPair content (if (content[stop - 1]?).any isHighSurrogate then stop - 1 else stop)
  := by
  split
  case isTrue hhigh =>
    rintro ⟨-, -, hlow⟩
    cases hcode : content[stop - 1]? with
    | none =>
      rw [hcode] at hlow
      cases hlow
    | some code =>
      rw [hcode, Option.any_some] at hhigh hlow
      rw [not_isLowSurrogate hhigh] at hlow
      cases hlow
  case isFalse hhigh =>
    rintro ⟨-, hcut, -⟩
    exact hhigh hcut

theorem getElem?_lineBreak {content : List CodeUnit} {stop lineBreak : Nat}
    (h : lastIndexOf [codeUnit '\n'] (content.take stop) = some lineBreak) :
  lineBreak < stop ∧ content[lineBreak]? = some (codeUnit '\n')
  := by
  have hle : lineBreak + 1 ≤ (content.take stop).length :=
    lastIndexOf_add_length_le h (List.cons_ne_nil _ _)
  rw [List.length_take] at hle
  obtain ⟨rest, hrest⟩ := prefix_of_lastIndexOf h
  have hget := congrArg (·[0]?) hrest
  simp only [List.singleton_append, List.getElem?_cons_zero, List.getElem?_drop, Nat.add_zero,
    List.getElem?_take] at hget
  have hlt : lineBreak < stop := by omega
  rw [if_pos hlt] at hget
  exact ⟨hlt, hget.symm⟩

theorem not_cutsPair_lineBreak {content : List CodeUnit} {stop lineBreak : Nat}
    (h : lastIndexOf [codeUnit '\n'] (content.take stop) = some lineBreak) :
  ¬ CutsPair content (lineBreak + 1)
  := by
  rintro ⟨-, hhigh, -⟩
  rw [Nat.add_sub_cancel, (getElem?_lineBreak h).2] at hhigh
  revert hhigh
  decide

/-- A segment is not empty, ends in the text, and its end divides no surrogate pair. -/
theorem segmentEnd_spec {content : List CodeUnit} {size start : Nat} (hsize : 2 ≤ size)
    (h : start < content.length) :
  start < segmentEnd content size start ∧ segmentEnd content size start ≤ content.length ∧
    ¬ CutsPair content (segmentEnd content size start)
  := by
  rw [segmentEnd]
  generalize hstop : min (start + size) content.length = stop
  by_cases hlt : stop < content.length
  · have heq : stop = start + size := by omega
    have hback : start < (if (content[stop - 1]?).any isHighSurrogate then stop - 1 else stop) ∧
        (if (content[stop - 1]?).any isHighSurrogate then stop - 1 else stop) ≤ content.length
        := by
      split
      case isTrue => omega
      case isFalse => omega
    simp only [if_pos hlt]
    split
    case h_1 lineBreak hbreak =>
      by_cases hnear : 2 * lineBreak ≥ 2 * start + size
      · have hbound := (getElem?_lineBreak hbreak).1
        rw [if_pos hnear]
        exact ⟨by omega, by omega, not_cutsPair_lineBreak hbreak⟩
      · rw [if_neg hnear]
        exact ⟨hback.1, hback.2, not_cutsPair_stepBack content stop⟩
    case h_2 => exact ⟨hback.1, hback.2, not_cutsPair_stepBack content stop⟩
  · have heq : stop = content.length := by omega
    simp only [if_neg hlt]
    refine ⟨by omega, heq.le, ?_⟩
    rintro ⟨-, -, hlow⟩
    rw [heq, List.getElem?_eq_none (Nat.le_refl _)] at hlow
    cases hlow

theorem segmentsLoop_spec {content : List CodeUnit} {size : Nat} (hsize : 2 ≤ size)
    {fuel start : Nat} (hstart : start ≤ content.length) (hfuel : content.length ≤ start + fuel) :
  ∃ ranges, segmentsLoop content size fuel start = some ranges ∧
    Partition start ranges content.length ∧ ∀ range ∈ ranges, ¬ CutsPair content range.2
  := by
  induction fuel generalizing start with
  | zero =>
    obtain rfl : start = content.length := Nat.le_antisymm hstart hfuel
    refine ⟨[], ?_, .nil _, fun range hrange => nomatch hrange⟩
    rw [segmentsLoop, if_neg (Nat.lt_irrefl _)]
  | succ fuel ih =>
    rw [segmentsLoop]
    by_cases hlt : start < content.length
    · obtain ⟨hprogress, hend, hpair⟩ := segmentEnd_spec hsize hlt
      obtain ⟨ranges, hranges, hpartition, hpairs⟩ := ih hend (by omega)
      rw [if_pos hlt, hranges]
      refine ⟨_, rfl, .cons hprogress hpartition, ?_⟩
      intro range hrange
      obtain rfl | hrange := List.mem_cons.mp hrange
      · exact hpair
      · exact hpairs range hrange
    · obtain rfl : start = content.length := Nat.le_antisymm hstart (Nat.le_of_not_lt hlt)
      rw [if_neg hlt]
      exact ⟨[], rfl, .nil _, fun range hrange => nomatch hrange⟩

/-! ### Coverage of the text -/

/-- A chunk that is the slice of the text at its offset. -/
structure Chunk.IsSlice (content : List CodeUnit) (chunk : Chunk) : Prop where
  slice : chunk.content = (content.drop chunk.charOffset).take chunk.content.length
  bounded : chunk.content.length ≤ chunkChars
  nonempty : 0 < chunk.content.length

def Chunk.stop (chunk : Chunk) : Nat :=
  chunk.charOffset + chunk.content.length

theorem Chunk.IsSlice.stop_le {content : List CodeUnit} {chunk : Chunk}
    (h : chunk.IsSlice content) :
  chunk.stop ≤ content.length
  := by
  have hlength := congrArg List.length h.slice
  have hpos := h.nonempty
  rw [List.length_take, List.length_drop] at hlength
  rw [Chunk.stop]
  omega

theorem Chunk.IsSlice.getElem?_eq {content : List CodeUnit} {chunk : Chunk}
    (h : chunk.IsSlice content) {i : Nat} (hi : i < chunk.content.length) :
  chunk.content[i]? = content[chunk.charOffset + i]?
  := by
  rw [h.slice, List.getElem?_take, List.getElem?_drop, if_pos hi]

/-- A chunk is longer than half the target, or ends the text. -/
theorem chunkText_spec {content : List CodeUnit} {offset : Nat} (h : offset < content.length) :
  (Chunk.ofText (chunkText content offset) offset).IsSlice content ∧
    (chunkChars < 2 * (chunkText content offset).length ∨
      offset + (chunkText content offset).length = content.length)
  := by
  have htake : ∀ n, n ≤ chunkChars → 0 < n → offset + n ≤ content.length →
      (Chunk.ofText ((content.drop offset).take n) offset).IsSlice content ∧
        ((content.drop offset).take n).length = n := by
    intro n hn hpos hle
    have hlength : ((content.drop offset).take n).length = n := by
      rw [List.length_take, List.length_drop]
      omega
    refine ⟨⟨?_, ?_, ?_⟩, hlength⟩
    · simp only [Chunk.ofText, hlength]
    · exact hlength.trans_le hn
    · exact hpos.trans_eq hlength.symm
  rw [chunkText]
  by_cases hlong : offset + chunkChars < content.length
  · have hwhole := htake chunkChars (Nat.le_refl _) (by decide) hlong.le
    have hmore : chunkChars < 2 * chunkChars := by decide
    simp only [if_pos hlong]
    split
    case h_1 lastParagraph hparagraph =>
      have hbound := lastIndexOf_add_length_le hparagraph (List.cons_ne_nil _ _)
      rw [hwhole.2] at hbound
      by_cases hfar : 2 * lastParagraph > chunkChars
      · have hbefore : lastParagraph ≤ chunkChars := by omega
        have hpart := htake lastParagraph hbefore (by omega) (by omega)
        rw [if_pos hfar, List.take_take, Nat.min_eq_left hbefore, hpart.2]
        exact ⟨hpart.1, .inl hfar⟩
      · rw [if_neg hfar, hwhole.2]
        exact ⟨hwhole.1, .inl hmore⟩
    case h_2 =>
      rw [hwhole.2]
      exact ⟨hwhole.1, .inl hmore⟩
  · have hall : (content.drop offset).take chunkChars =
        (content.drop offset).take (content.length - offset) := by
      rw [List.take_of_length_le, List.take_of_length_le]
      · exact (List.length_drop).le
      · rw [List.length_drop]
        omega
    have hrest := htake (content.length - offset) (by omega) (by omega) (by omega)
    rw [if_neg hlong, hall, hrest.2]
    exact ⟨hrest.1, .inr (by omega)⟩

/-- Chunks from an offset on: each ends no earlier than the one before it, whose end it reaches
back to. -/
inductive ChunksFrom (content : List CodeUnit) : Nat → List Chunk → Prop where
  | done : ChunksFrom content content.length []
  | chunk {chunk : Chunk} {next : Nat} {chunks : List Chunk} (hslice : chunk.IsSlice content)
      (hprogress : chunk.charOffset < next) (hnext : next ≤ chunk.stop)
      (hstop : ∀ other ∈ chunks.head?, chunk.stop ≤ other.stop)
      (rest : ChunksFrom content next chunks) :
      ChunksFrom content chunk.charOffset (chunk :: chunks)

theorem Chunk.next_spec {chunk : Chunk} (h : 0 < chunk.content.length) :
  chunk.charOffset < chunk.next ∧ chunk.next ≤ chunk.stop ∧
    chunk.stop ≤ chunk.next + chunkOverlap
  := by
  rw [Chunk.next, Chunk.stop]
  have hoverlap : chunkOverlap = 512 := rfl
  split
  case isTrue => omega
  case isFalse => omega

theorem fallbackLoop_spec {content : List CodeUnit} {fuel offset : Nat}
    (hoffset : offset ≤ content.length) (hfuel : content.length ≤ offset + fuel) :
  ∃ chunks, fallbackLoop content fuel offset = some chunks ∧ ChunksFrom content offset chunks ∧
    ∀ first ∈ chunks.head?, min (offset + chunkOverlap) content.length ≤ first.stop
  := by
  induction fuel generalizing offset with
  | zero =>
    obtain rfl : offset = content.length := Nat.le_antisymm hoffset hfuel
    refine ⟨[], ?_, .done, fun first hfirst => nomatch hfirst⟩
    rw [fallbackLoop, if_neg (Nat.lt_irrefl _)]
  | succ fuel ih =>
    rw [fallbackLoop]
    by_cases hlt : offset < content.length
    · obtain ⟨hslice, hlong⟩ := chunkText_spec hlt
      generalize hchunk : Chunk.ofText (chunkText content offset) offset = chunk at hslice
      have hstop : chunk.stop = offset + (chunkText content offset).length := by
        rw [← hchunk, Chunk.stop, Chunk.ofText]
      have hstart : chunk.charOffset = offset := by
        rw [← hchunk, Chunk.ofText]
      obtain ⟨hprogress, hnext, hback⟩ := Chunk.next_spec hslice.nonempty
      have hend := hslice.stop_le
      obtain ⟨chunks, hchunks, hfrom, hfirst⟩ :=
        @ih chunk.next (by omega) (by omega)
      simp only [if_pos hlt, hchunks, Option.map_some]
      refine ⟨_, rfl, ?_, ?_⟩
      · rw [← hstart]
        apply ChunksFrom.chunk hslice hprogress hnext _ hfrom
        intro other hother
        have hother := hfirst other hother
        omega
      · intro first hfirst
        obtain rfl : chunk = first := Option.some.inj hfirst
        have hhalf : 2 * chunkOverlap ≤ chunkChars := by decide
        omega
    · obtain rfl : offset = content.length := Nat.le_antisymm hoffset (Nat.le_of_not_lt hlt)
      rw [if_neg hlt]
      exact ⟨[], rfl, .done, fun first hfirst => nomatch hfirst⟩

theorem fallbackChunk_spec (content : List CodeUnit) :
  ∃ chunks, fallbackChunk content = some chunks ∧ ChunksFrom content 0 chunks
  := by
  rw [fallbackChunk]
  by_cases hempty : content.length = 0
  · rw [if_pos hempty]
    refine ⟨[], rfl, ?_⟩
    have hdone : ChunksFrom content content.length [] := .done
    rw [hempty] at hdone
    exact hdone
  · rw [if_neg hempty]
    by_cases hshort : content.length ≤ chunkChars
    · have hslice : (Chunk.ofText content 0).IsSlice content :=
        ⟨by simp [Chunk.ofText], hshort, Nat.pos_of_ne_zero hempty⟩
      have hstop : content.length = (Chunk.ofText content 0).stop := (Nat.zero_add _).symm
      rw [if_pos hshort]
      refine ⟨_, rfl, ?_⟩
      apply ChunksFrom.chunk hslice hslice.nonempty hstop.le _ .done
      intro other hother
      cases hother
    · rw [if_neg hshort]
      obtain ⟨chunks, hchunks, hfrom, -⟩ :=
        fallbackLoop_spec (Nat.zero_le content.length) (Nat.zero_add _).ge
      exact ⟨chunks, hchunks, hfrom⟩

theorem ChunksFrom.isSlice {content : List CodeUnit} {offset : Nat} {chunks : List Chunk}
    (h : ChunksFrom content offset chunks) :
  ∀ chunk ∈ chunks, chunk.IsSlice content ∧ offset ≤ chunk.charOffset
  := by
  induction h with
  | done => exact fun chunk hchunk => nomatch hchunk
  | chunk hslice hprogress hnext hstop rest ih =>
    intro other hother
    obtain rfl | hother := List.mem_cons.mp hother
    · exact ⟨hslice, Nat.le_refl _⟩
    · obtain ⟨hslice, hle⟩ := ih other hother
      exact ⟨hslice, hprogress.le.trans hle⟩

theorem ChunksFrom.increasing {content : List CodeUnit} {offset : Nat} {chunks : List Chunk}
    (h : ChunksFrom content offset chunks) :
  chunks.Pairwise (fun a b => a.charOffset < b.charOffset)
  := by
  induction h with
  | done => exact .nil
  | chunk hslice hprogress hnext hstop rest ih =>
    rw [List.pairwise_cons]
    refine ⟨?_, ih⟩
    intro other hother
    exact hprogress.trans_le (rest.isSlice other hother).2

theorem ChunksFrom.covers {content : List CodeUnit} {offset : Nat} {chunks : List Chunk}
    (h : ChunksFrom content offset chunks) {i : Nat} (hoffset : offset ≤ i)
    (hi : i < content.length) :
  ∃ chunk ∈ chunks, chunk.charOffset ≤ i ∧ i < chunk.stop
  := by
  induction h with
  | done => exact absurd hi (Nat.not_lt_of_le hoffset)
  | @chunk chunk next chunks hslice hprogress hnext hstop rest ih =>
    by_cases hlt : i < chunk.stop
    · exact ⟨chunk, List.mem_cons_self, hoffset, hlt⟩
    · obtain ⟨other, hother, hcovers⟩ := ih (by omega)
      exact ⟨other, List.mem_cons_of_mem _ hother, hcovers⟩

/-! ### Pages of chunks -/

/-- The first non-blank character of a chunk is at a position of the text. -/
structure Chunk.FirstNonBlank (content : List CodeUnit) (chunk : Chunk) (position : Nat) :
    Prop where
  inside : chunk.charOffset ≤ position ∧ position < chunk.stop
  nonBlank : (content[position]?).any isSpace = false
  blank : ∀ i, chunk.charOffset ≤ i → i < position → (content[i]?).any isSpace = true

/-- The page is the last one that starts at or before the position. -/
def LastPage (pageStarts : List Nat) (position page : Nat) : Prop :=
  ∃ pageIndex, page = pageIndex + 1 ∧ (∃ start ∈ pageStarts[pageIndex]?, start ≤ position) ∧
    ∀ i, pageIndex < i → ∀ start ∈ pageStarts[i]?, position < start

/-- What the offset of `chunkPages` is: the characters before it are blank, and it is the end of
the chunk or not blank. -/
theorem Chunk.IsSlice.pageOffset_spec {content : List CodeUnit} {chunk : Chunk}
    (h : chunk.IsSlice content) :
  chunk.charOffset ≤ chunk.pageOffset ∧
    (∀ i, chunk.charOffset ≤ i → i < chunk.pageOffset → (content[i]?).any isSpace = true) ∧
    (chunk.pageOffset < chunk.stop ∧ (content[chunk.pageOffset]?).any isSpace = false ∨
      chunk.pageOffset = chunk.stop)
  := by
  have hsplit := List.takeWhile_append_dropWhile (p := isSpace) (l := chunk.content)
  have hlength := congrArg List.length hsplit
  rw [List.length_append] at hlength
  have hoffset : chunk.pageOffset =
      chunk.charOffset + (chunk.content.takeWhile isSpace).length := by
    rw [Chunk.pageOffset]
    omega
  refine ⟨?_, ?_, ?_⟩
  · omega
  · intro i hle hlt
    obtain ⟨k, rfl⟩ := Nat.exists_eq_add_of_le hle
    have hk : k < (chunk.content.takeWhile isSpace).length := by omega
    have htrimmed := List.mem_takeWhile_imp (List.getElem_mem hk)
    rw [← h.getElem?_eq (by omega), ← hsplit, List.getElem?_append_left hk,
      List.getElem?_eq_getElem hk]
    exact htrimmed
  · cases hdrop : chunk.content.dropWhile isSpace with
    | nil =>
      right
      rw [hdrop, List.length_nil] at hlength
      rw [Chunk.stop]
      omega
    | cons c rest =>
      left
      rw [hdrop, List.length_cons] at hlength
      have hlt : (chunk.content.takeWhile isSpace).length < chunk.content.length := by omega
      refine ⟨?_, ?_⟩
      · rw [Chunk.stop]
        omega
      · have hhead := List.head?_dropWhile_not isSpace chunk.content
        have hget := @List.getElem?_append_right _ (chunk.content.takeWhile isSpace)
          (chunk.content.dropWhile isSpace) _ (Nat.le_refl _)
        rw [hsplit, Nat.sub_self, hdrop] at hget
        rw [hdrop] at hhead
        rw [hoffset, ← h.getElem?_eq hlt, hget]
        exact hhead

theorem Chunk.FirstNonBlank.eq_pageOffset {content : List CodeUnit} {chunk : Chunk}
    (h : chunk.IsSlice content) {position : Nat} (hposition : chunk.FirstNonBlank content position) :
  position = chunk.pageOffset
  := by
  obtain ⟨hle, hblank, hend⟩ := h.pageOffset_spec
  obtain hlt | heq | hlt := Nat.lt_trichotomy position chunk.pageOffset
  · have htrimmed := hblank position hposition.inside.1 hlt
    rw [hposition.nonBlank] at htrimmed
    cases htrimmed
  · exact heq
  · obtain ⟨-, hnonBlank⟩ | hstop := hend
    · rw [hposition.blank _ hle hlt] at hnonBlank
      cases hnonBlank
    · exact absurd hposition.inside.2 (by omega)

/-- The offset of a later chunk is no smaller, also where a chunk is blank. -/
theorem Chunk.IsSlice.pageOffset_le {content : List CodeUnit} {chunk next : Chunk}
    (h : chunk.IsSlice content) (hnext : next.IsSlice content)
    (hoffset : chunk.charOffset ≤ next.charOffset) (hstop : chunk.stop ≤ next.stop) :
  chunk.pageOffset ≤ next.pageOffset
  := by
  obtain ⟨hle, hblank, hend⟩ := h.pageOffset_spec
  obtain ⟨hle', -, hend'⟩ := hnext.pageOffset_spec
  by_contra hlt
  obtain ⟨-, hnonBlank⟩ | hstop' := hend'
  · rw [hblank next.pageOffset (by omega) (by omega)] at hnonBlank
    cases hnonBlank
  · omega

theorem ChunksFrom.pageOffsets {content : List CodeUnit} {offset : Nat} {chunks : List Chunk}
    (h : ChunksFrom content offset chunks) :
  chunks.Pairwise (fun a b => a.pageOffset ≤ b.pageOffset)
  := by
  induction h with
  | done => exact .nil
  | @chunk chunk next chunks hslice hprogress hnext hstop rest ih =>
    rw [List.pairwise_cons]
    refine ⟨?_, ih⟩
    cases chunks with
    | nil => exact fun other hother => nomatch hother
    | cons first chunks =>
      obtain ⟨hfirst, hoffset⟩ := rest.isSlice first List.mem_cons_self
      have hle := hslice.pageOffset_le hfirst (hprogress.le.trans hoffset)
        (hstop first rfl)
      intro other hother
      obtain rfl | hother := List.mem_cons.mp hother
      · exact hle
      · exact hle.trans (List.rel_of_pairwise_cons ih hother)

theorem le_of_sorted {pageStarts : List Nat} (hsorted : pageStarts.Pairwise (· ≤ ·))
    {i j a b : Nat} (ha : pageStarts[i]? = some a) (hb : pageStarts[j]? = some b) (h : i ≤ j) :
  a ≤ b
  := by
  obtain ⟨hi, rfl⟩ := List.getElem?_eq_some_iff.mp ha
  obtain ⟨hj, rfl⟩ := List.getElem?_eq_some_iff.mp hb
  obtain rfl | hlt := Nat.eq_or_lt_of_le h
  · exact Nat.le_refl _
  · exact List.pairwise_iff_getElem.mp hsorted i j hi hj hlt

/-- Where the walk begins at a page that starts at or before the offset, it ends at the last
one. -/
theorem pageWalk_spec {pageStarts : List Nat} (hsorted : pageStarts.Pairwise (· ≤ ·))
    {offset fuel pageIndex : Nat} (hstart : ∃ start ∈ pageStarts[pageIndex]?, start ≤ offset)
    (hfuel : pageStarts.length ≤ pageIndex + fuel) :
  LastPage pageStarts offset (pageWalk pageStarts offset fuel pageIndex + 1)
  := by
  induction fuel generalizing pageIndex with
  | zero =>
    obtain ⟨start, hget, -⟩ := hstart
    rw [List.getElem?_eq_none (i := pageIndex) hfuel] at hget
    cases hget
  | succ fuel ih =>
    rw [pageWalk]
    cases hnext : pageStarts[pageIndex + 1]? with
    | none =>
      refine ⟨pageIndex, rfl, hstart, ?_⟩
      intro i hi start hget
      rw [List.getElem?_eq_none_iff] at hnext
      rw [List.getElem?_eq_none (hnext.trans hi)] at hget
      cases hget
    | some next =>
      rw [Option.any_some]
      by_cases hle : next ≤ offset
      · rw [if_pos (decide_eq_true hle)]
        exact ih ⟨next, hnext, hle⟩ (by omega)
      · rw [if_neg (by simpa using hle)]
        refine ⟨pageIndex, rfl, hstart, ?_⟩
        intro i hi start hget
        have hmono := le_of_sorted hsorted hnext hget hi
        omega

theorem chunkPagesFrom_spec {pageStarts : List Nat} (hsorted : pageStarts.Pairwise (· ≤ ·))
    {chunks : List Chunk} (hchunks : chunks.Pairwise (fun a b => a.pageOffset ≤ b.pageOffset))
    {pageIndex : Nat}
    (hstart : ∃ start ∈ pageStarts[pageIndex]?, ∀ chunk ∈ chunks, start ≤ chunk.pageOffset) :
  List.Forall₂ (fun chunk page => LastPage pageStarts chunk.pageOffset page) chunks
    (chunkPagesFrom pageStarts pageIndex chunks)
  := by
  induction chunks generalizing pageIndex with
  | nil => exact .nil
  | cons chunk chunks ih =>
    obtain ⟨start, hget, hle⟩ := hstart
    have hpage := @pageWalk_spec _ hsorted _ pageStarts.length _
      ⟨start, hget, hle chunk List.mem_cons_self⟩ (Nat.le_add_left _ _)
    rw [chunkPagesFrom]
    refine .cons hpage ?_
    apply ih (List.Pairwise.of_cons hchunks)
    obtain ⟨index, hindex, ⟨reached, hreached, hle⟩, -⟩ := hpage
    rw [Nat.succ.inj hindex]
    refine ⟨reached, hreached, ?_⟩
    intro other hother
    exact hle.trans (List.rel_of_pairwise_cons hchunks hother)

/-! ### The pages of a PDF -/

/-- `MAX_EMBED_CHARS`. -/
def maxEmbedChars : Nat := 2000000

/-- The loop of `extractPdfText` over the texts of the pages; `text` is what it has of the pages
before. -/
def extractPdfPages : List (List CodeUnit) → List CodeUnit → List Nat → List CodeUnit × List Nat
  | [], text, pageStarts => (text, pageStarts)
  | pageText :: pages, text, pageStarts =>
      if text.length < maxEmbedChars then
        let text := if pageStarts = [] then text else
          text ++ [codeUnit '\n', codeUnit '\n'].take (maxEmbedChars - text.length)
        extractPdfPages pages (text ++ pageText.take (maxEmbedChars - text.length))
          (pageStarts ++ [text.length])
      else (text, pageStarts)

/-- The starts of the pages grow from zero. -/
structure PageStarts (pageStarts : List Nat) : Prop where
  sorted : pageStarts.Pairwise (· ≤ ·)
  zero : pageStarts ≠ [] → pageStarts[0]? = some 0

theorem PageStarts.append {pageStarts : List Nat} (h : PageStarts pageStarts) {start : Nat}
    (hle : ∀ other ∈ pageStarts, other ≤ start) (hfirst : pageStarts = [] → start = 0) :
  PageStarts (pageStarts ++ [start])
  := by
  constructor
  · rw [List.pairwise_append]
    refine ⟨h.sorted, List.pairwise_singleton _ _, ?_⟩
    intro other hother last hlast
    rw [List.mem_singleton.mp hlast]
    exact hle other hother
  · intro _
    cases pageStarts with
    | nil => simp [hfirst rfl]
    | cons other pageStarts => exact h.zero (List.cons_ne_nil _ _)

theorem pageStarts_extractPdfPages {pages : List (List CodeUnit)} {text : List CodeUnit}
    {pageStarts : List Nat} (h : PageStarts pageStarts)
    (hle : ∀ start ∈ pageStarts, start ≤ text.length) (hfirst : pageStarts = [] → text = []) :
  PageStarts (extractPdfPages pages text pageStarts).2
  := by
  induction pages generalizing text pageStarts with
  | nil => exact h
  | cons pageText pages ih =>
    rw [extractPdfPages]
    by_cases hlt : text.length < maxEmbedChars
    · simp only [if_pos hlt]
      generalize htext' : (if pageStarts = [] then text else
        text ++ [codeUnit '\n', codeUnit '\n'].take (maxEmbedChars - text.length)) = text'
      have hgrow : text.length ≤ text'.length := by
        rw [← htext']
        split
        case isTrue => exact Nat.le_refl _
        case isFalse => simp
      have hstart : pageStarts = [] → text'.length = 0 := by
        intro hempty
        rw [← htext', if_pos hempty, hfirst hempty, List.length_nil]
      apply ih
      · exact h.append (fun other hother => (hle other hother).trans hgrow) hstart
      · intro start hmem
        rw [List.length_append]
        obtain hmem | hmem := List.mem_append.mp hmem
        · exact ((hle start hmem).trans hgrow).trans (Nat.le_add_right _ _)
        · rw [List.mem_singleton.mp hmem]
          exact Nat.le_add_right _ _
      · intro hempty
        simp at hempty
    · rw [if_neg hlt]
      exact h

/-- What `chunkPages` is given. -/
theorem pageStarts_pdf (pages : List (List CodeUnit)) :
  PageStarts (extractPdfPages pages [] []).2
  := pageStarts_extractPdfPages ⟨.nil, fun h => absurd rfl h⟩ (fun _ h => nomatch h)
    (fun _ => rfl)

/-! ### The law of chunking -/

/-- Segments partition the text, chunks cover it, and a chunk gets the last page that starts at
or before its first non-blank character. -/
theorem chunking_law (content : List CodeUnit) {size : Nat} (hsize : 2 ≤ size)
    {pageStarts : List Nat} (hpages : PageStarts pageStarts) (hne : pageStarts ≠ []) :
  (∃ ranges, segments content size = some ranges ∧ Partition 0 ranges content.length ∧
    ∀ range ∈ ranges, ¬ CutsPair content range.2) ∧
  ∃ chunks, fallbackChunk content = some chunks ∧
    chunks.Pairwise (fun a b => a.charOffset < b.charOffset) ∧
    (∀ chunk ∈ chunks, chunk.IsSlice content) ∧
    (∀ i < content.length, ∃ chunk ∈ chunks, chunk.charOffset ≤ i ∧ i < chunk.stop) ∧
    List.Forall₂ (fun chunk page => ∀ position, chunk.FirstNonBlank content position →
      LastPage pageStarts position page) chunks (chunkPages chunks pageStarts)
  := by
  constructor
  · exact segmentsLoop_spec hsize (Nat.zero_le _) (Nat.zero_add _).ge
  · obtain ⟨chunks, hchunks, hfrom⟩ := fallbackChunk_spec content
    refine ⟨chunks, hchunks, hfrom.increasing, ?_, ?_, ?_⟩
    · exact fun chunk hchunk => (hfrom.isSlice chunk hchunk).1
    · exact fun i hi => hfrom.covers (Nat.zero_le i) hi
    · have hwalk := chunkPagesFrom_spec hpages.sorted hfrom.pageOffsets
        ⟨0, hpages.zero hne, fun chunk _ => Nat.zero_le _⟩
      have hslices : ∀ chunk ∈ chunks, chunk.IsSlice content :=
        fun chunk hchunk => (hfrom.isSlice chunk hchunk).1
      refine List.Forall₂.imp ?_ ((List.forall₂_and_left _ _).mpr ⟨hslices, hwalk⟩)
      intro chunk page hchunk position hposition
      rw [hposition.eq_pageOffset hchunk.1]
      exact hchunk.2

/-- A text of two pages. -/
theorem chunking_law_sample :
  (∃ ranges, segments (codeUnits "one\n\ntwo") 4 = some ranges ∧ Partition 0 ranges 8 ∧
    ∀ range ∈ ranges, ¬ CutsPair (codeUnits "one\n\ntwo") range.2) ∧
  ∃ chunks, fallbackChunk (codeUnits "one\n\ntwo") = some chunks ∧
    List.Forall₂ (fun chunk page =>
      ∀ position, chunk.FirstNonBlank (codeUnits "one\n\ntwo") position →
        LastPage [0, 5] position page) chunks (chunkPages chunks [0, 5])
  := by
  have hpages : PageStarts [0, 5] := ⟨by simp, fun _ => rfl⟩
  obtain ⟨hsegments, chunks, hchunks, -, -, -, hwalk⟩ :=
    chunking_law (codeUnits "one\n\ntwo") (by decide : 2 ≤ 4) hpages (List.cons_ne_nil _ _)
  exact ⟨hsegments, chunks, hchunks, hwalk⟩

end AgentFs.Chunker

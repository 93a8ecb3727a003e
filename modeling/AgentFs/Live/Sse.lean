import Mathlib.Data.List.Induction
import AgentFs.Paths

/-!
# Server-sent events

`createSseParser` of `live/src/lib/sse.ts`.  Every chunk has its line ends rewritten by itself, so
that a cut between a carriage return and its line feed adds an empty line to the stream.
-/

namespace AgentFs

/-! ### The parser -/

structure SseFrame where
  event : Text
  data : Text
  deriving DecidableEq, Repr

/-- What the parser has emitted. -/
structure SseOutput where
  frames : List SseFrame := []
  comments : List Text := []
  deriving DecidableEq, Repr

def SseOutput.append (a b : SseOutput) : SseOutput :=
  ⟨a.frames ++ b.frames, a.comments ++ b.comments⟩

/-- `chunk.replace(/\r\n?/g, "\n")`. -/
def normalizeLineEnds : Text → Text
  | [] => []
  | [c] => [if c = '\r' then '\n' else c]
  | c :: d :: rest =>
      if c = '\r' ∧ d = '\n' then '\n' :: normalizeLineEnds rest
      else (if c = '\r' then '\n' else c) :: normalizeLineEnds (d :: rest)

/-- The variables of the loop over the lines of a block. -/
structure BlockFields where
  event : Text := []
  data : List Text := []
  comments : List Text := []
  deriving DecidableEq, Repr

/-- The field and the value of a line. -/
def lineField (line : Text) : Text × Text :=
  let field := line.takeWhile (· ≠ ':')
  let value := (line.drop (field.length + 1))
  (field, if value.head? = some ' ' then value.tail else value)

def readLine (s : BlockFields) (line : Text) : BlockFields :=
  if line.head? = some ':' then { s with comments := s.comments ++ [line.tail] }
  else if (lineField line).1 = "event".toList then { s with event := (lineField line).2 }
  else if (lineField line).1 = "data".toList then { s with data := s.data ++ [(lineField line).2] }
  else s

/-- `data.join("\n")`. -/
def joinLines : List Text → Text
  | [] => []
  | [line] => line
  | line :: lines => line ++ '\n' :: joinLines lines

/-- What is emitted for lines. -/
def blockOutput (lines : List Text) : SseOutput :=
  let s := lines.foldl readLine {}
  { frames :=
      if s.event ≠ [] ∨ s.data ≠ [] then
        [⟨if s.event = [] then "message".toList else s.event, joinLines s.data⟩]
      else []
    comments := s.comments }

/-- The text before the first empty line, and the text after it. -/
def takeBlock : Text → Option (Text × Text)
  | [] => none
  | [_] => none
  | c :: d :: rest =>
      if c = '\n' ∧ d = '\n' then some ([], rest)
      else (takeBlock (d :: rest)).map (fun (block, rest) => (c :: block, rest))

structure SseParser where
  buffer : Text := []
  output : SseOutput := {}
  deriving DecidableEq, Repr

/-- The loop over the blocks of the buffer, of which there are at most `fuel`. -/
def emitBlocks : Nat → SseParser → SseParser
  | 0, s => s
  | fuel + 1, s =>
      match takeBlock s.buffer with
      | none => s
      | some (block, rest) =>
          emitBlocks fuel ⟨rest, s.output.append (blockOutput (block.splitOn '\n'))⟩

/-- A call of the function that `createSseParser` returns. -/
def SseParser.feed (s : SseParser) (chunk : Text) : SseParser :=
  let buffer := s.buffer ++ normalizeLineEnds chunk
  emitBlocks buffer.length { s with buffer := buffer }

/-- What is emitted for a stream that arrives in chunks. -/
def parseChunks (chunks : List Text) : SseOutput :=
  (chunks.foldl SseParser.feed {}).output

/-! ### Divided line ends -/

/-- The stream with its line ends rewritten, and a mark where a cut falls between a carriage
return and its line feed. -/
def markedStream (afterReturn : Bool) : List Text → List (Option Char)
  | [] => []
  | chunk :: chunks =>
      if chunk = [] then markedStream afterReturn chunks
      else
        (if afterReturn ∧ chunk.head? = some '\n' then
            none :: (normalizeLineEnds chunk).tail.map some
          else (normalizeLineEnds chunk).map some) ++
          markedStream (chunk.getLast? = some '\r') chunks

/-- The complete lines of a marked stream and its marks, after the start of a line. -/
def markedLines (start : Text) : List (Option Char) → List (Option Text)
  | [] => []
  | none :: stream => none :: markedLines start stream
  | some c :: stream =>
      if c = '\n' then some start :: markedLines [] stream
      else markedLines (start ++ [c]) stream

/-- The blocks of lines, each in the parts into which the marks divide it; the last one has no
empty line after it. -/
def markedBlocks (parts : List (List Text)) (part : List Text) :
    List (Option Text) → List (List (List Text)) × List (List Text)
  | [] => ([], parts ++ [part])
  | none :: lines => markedBlocks (parts ++ [part]) [] lines
  | some [] :: lines =>
      ((parts ++ [part]) :: (markedBlocks [] [] lines).1, (markedBlocks [] [] lines).2)
  | some (c :: line) :: lines => markedBlocks parts (part ++ [c :: line]) lines

/-- The blocks of a stream that arrives in chunks. -/
def dividedBlocks (chunks : List Text) : List (List (List Text)) × List (List Text) :=
  markedBlocks [] [] (markedLines [] (markedStream false chunks))

/-! ### Fields of lines -/

/-- The fields of lines. -/
def blockFields (lines : List Text) : BlockFields :=
  lines.foldl readLine {}

/-- A line that sets the name of the event. -/
def namesEvent (line : Text) : Bool :=
  line.head? ≠ some ':' ∧ (lineField line).1 = "event".toList

theorem foldl_readLine (lines : List Text) (s : BlockFields) :
  lines.foldl readLine s =
    ⟨if lines.any namesEvent then (blockFields lines).event else s.event,
      s.data ++ (blockFields lines).data, s.comments ++ (blockFields lines).comments⟩
  := by
  induction lines using List.reverseRecOn with
  | nil => simp [blockFields]
  | append_singleton lines line ih =>
    rw [blockFields] at ih ⊢
    rw [List.foldl_append, List.foldl_append, List.foldl_cons, List.foldl_nil, ih]
    generalize lines.foldl readLine {} = t
    simp only [List.foldl_cons, List.foldl_nil, readLine, List.any_append, List.any_cons,
      List.any_nil, Bool.or_false, namesEvent]
    generalize "event".toList = event
    generalize "data".toList = data
    generalize (lineField line).1 = field
    by_cases hcomment : line.head? = some ':'
    · simp [hcomment]
    · by_cases hevent : field = event
      · simp [hcomment, hevent]
      · by_cases hdata : field = data
        · subst hdata
          simp [hcomment, hevent]
        · simp [hcomment, hevent, hdata]

theorem blockFields_append (a b : List Text) :
  blockFields (a ++ b) =
    ⟨if b.any namesEvent then (blockFields b).event else (blockFields a).event,
      (blockFields a).data ++ (blockFields b).data,
      (blockFields a).comments ++ (blockFields b).comments⟩
  := by
  rw [blockFields, List.foldl_append, foldl_readLine b]
  rfl

/-- An empty line has no field. -/
theorem blockOutput_nil_line (a b : List Text) :
  blockOutput (a ++ [] :: b) = blockOutput (a ++ b)
  := by
  rw [blockOutput, blockOutput, List.foldl_append, List.foldl_append, List.foldl_cons]
  rfl

/-! ### Blocks of the stream -/

theorem SseOutput.append_assoc (a b c : SseOutput) :
  (a.append b).append c = a.append (b.append c)
  := by
  simp [SseOutput.append]

theorem SseOutput.nil_append (a : SseOutput) :
  SseOutput.append {} a = a
  := rfl

theorem SseOutput.append_nil (a : SseOutput) :
  a.append {} = a
  := by
  simp [SseOutput.append]

/-- What is emitted for a text after lines and the start of a line, when an empty line ends the
lines before it. -/
def scanLines (pending : List Text) (line : Text) : Text → SseOutput
  | [] => {}
  | c :: text =>
      if c = '\n' then
        if line = [] then (blockOutput pending).append (scanLines [] [] text)
        else scanLines (pending ++ [line]) [] text
      else scanLines pending (line ++ [c]) text

theorem scanLines_newline (text : Text) :
  scanLines [] [] ('\n' :: text) = scanLines [] [] text
  := rfl

/-- The first block of a buffer is emitted with the lines before it. -/
theorem scanLines_takeBlock {b blk rest more : Text} {pending : List Text} {line : Text}
    (hline : '\n' ∉ line) (hpending : line = [] → pending = [] ∨ b.head? ≠ some '\n')
    (h : takeBlock b = some (blk, rest)) :
  scanLines pending line (b ++ more) =
    (blockOutput (pending ++ (line ++ blk).splitOn '\n')).append (scanLines [] [] (rest ++ more))
  := by
  induction b generalizing pending line blk with
  | nil => cases h
  | cons c b ih =>
    cases b with
    | nil => cases h
    | cons d b =>
      rw [takeBlock] at h
      by_cases hblank : c = '\n' ∧ d = '\n'
      · obtain ⟨rfl, rfl⟩ := hblank
        rw [if_pos ⟨rfl, rfl⟩] at h
        cases h
        rw [List.append_nil, List.splitOn_eq_singleton hline]
        by_cases hempty : line = []
        · rw [hempty, blockOutput_nil_line, List.append_nil]
          rfl
        · rw [List.cons_append, scanLines, if_pos rfl, if_neg hempty]
          rfl
      · rw [if_neg hblank] at h
        obtain ⟨⟨blk', rest'⟩, hrest, heq⟩ := Option.map_eq_some_iff.mp h
        cases heq
        rw [List.cons_append, scanLines]
        by_cases hnewline : c = '\n'
        · subst hnewline
          have hd : d ≠ '\n' := fun hd => hblank ⟨rfl, hd⟩
          have hhead : (d :: b).head? ≠ some '\n' := fun heq => hd (Option.some.inj heq)
          rw [if_pos rfl, List.splitOn_append_cons_self_of_not_mem hline]
          by_cases hempty : line = []
          · obtain rfl := (hpending hempty).resolve_right (fun hne => hne rfl)
            rw [if_pos hempty, hempty, blockOutput_nil_line,
              ih (List.not_mem_nil) (fun _ => .inl rfl) hrest]
            rfl
          · rw [if_neg hempty, ih (List.not_mem_nil) (fun _ => .inr hhead) hrest,
              List.append_assoc]
            rfl
        · have hline' : '\n' ∉ line ++ [c] := by
            simp [hline, Ne.symm hnewline]
          rw [if_neg hnewline, ih hline' (fun hnil => absurd hnil (by simp)) hrest,
            List.append_assoc line]
          rfl

/-- Nothing is emitted for a buffer without a block. -/
theorem scanLines_of_takeBlock_none {b : Text} {pending : List Text} {line : Text}
    (hpending : line = [] → pending = [] ∨ b.head? ≠ some '\n') (h : takeBlock b = none) :
  scanLines pending line b = {}
  := by
  induction b generalizing pending line with
  | nil => rfl
  | cons c b ih =>
    rw [scanLines]
    cases b with
    | nil =>
      by_cases hnewline : c = '\n'
      · subst hnewline
        rw [if_pos rfl]
        by_cases hempty : line = []
        · obtain rfl := (hpending hempty).resolve_right (fun hne => hne rfl)
          rw [if_pos hempty]
          rfl
        · rw [if_neg hempty]
          rfl
      · rw [if_neg hnewline]
        rfl
    | cons d b =>
      rw [takeBlock] at h
      by_cases hblank : c = '\n' ∧ d = '\n'
      · rw [if_pos hblank] at h
        cases h
      · rw [if_neg hblank, Option.map_eq_none_iff] at h
        by_cases hnewline : c = '\n'
        · subst hnewline
          have hd : d ≠ '\n' := fun hd => hblank ⟨rfl, hd⟩
          rw [if_pos rfl]
          by_cases hempty : line = []
          · obtain rfl := (hpending hempty).resolve_right (fun hne => hne rfl)
            rw [if_pos hempty, ih (fun _ => .inl rfl) h]
            rfl
          · rw [if_neg hempty]
            exact ih (fun _ => .inr (fun heq => hd (Option.some.inj heq))) h
        · rw [if_neg hnewline]
          exact ih (fun hnil => absurd hnil (by simp)) h

theorem length_takeBlock {b blk rest : Text} (h : takeBlock b = some (blk, rest)) :
  rest.length < b.length
  := by
  induction b generalizing blk with
  | nil => cases h
  | cons c b ih =>
    cases b with
    | nil => cases h
    | cons d b =>
      rw [takeBlock] at h
      split at h
      case isTrue =>
        cases h
        exact Nat.lt_succ_of_lt (Nat.lt_succ_self _)
      case isFalse =>
        obtain ⟨⟨blk', rest'⟩, hrest, heq⟩ := Option.map_eq_some_iff.mp h
        cases heq
        exact Nat.lt_succ_of_lt (ih hrest)

/-- What is emitted of a buffer, and the rest, which has no block. -/
theorem emitBlocks_spec {fuel : Nat} {s : SseParser} (hfuel : s.buffer.length ≤ fuel) :
  takeBlock (emitBlocks fuel s).buffer = none ∧
    ∀ more, s.output.append (scanLines [] [] (s.buffer ++ more)) =
      (emitBlocks fuel s).output.append (scanLines [] [] ((emitBlocks fuel s).buffer ++ more))
  := by
  induction fuel generalizing s with
  | zero =>
    have hnil : s.buffer = [] := List.length_eq_zero_iff.mp (Nat.le_zero.mp hfuel)
    rw [emitBlocks, hnil]
    exact ⟨rfl, fun _ => rfl⟩
  | succ fuel ih =>
    rw [emitBlocks]
    cases h : takeBlock s.buffer with
    | none => exact ⟨h, fun _ => rfl⟩
    | some found =>
      obtain ⟨blk, rest⟩ := found
      have hlt := length_takeBlock h
      obtain ⟨hnone, hmore⟩ :=
        ih (s := ⟨rest, s.output.append (blockOutput (blk.splitOn '\n'))⟩) (by
          dsimp only
          omega)
      refine ⟨hnone, fun more => ?_⟩
      rw [← hmore more, scanLines_takeBlock List.not_mem_nil (fun _ => .inl rfl) h,
        SseOutput.append_assoc]
      rfl

theorem feed_spec (s : SseParser) (chunk : Text) :
  takeBlock (s.feed chunk).buffer = none ∧
    ∀ more, s.output.append (scanLines [] [] (s.buffer ++ normalizeLineEnds chunk ++ more)) =
      (s.feed chunk).output.append (scanLines [] [] ((s.feed chunk).buffer ++ more))
  := emitBlocks_spec (s := { s with buffer := s.buffer ++ normalizeLineEnds chunk })
    (Nat.le_refl _)

theorem foldl_feed (chunks : List Text) (s : SseParser) (hs : takeBlock s.buffer = none) :
  takeBlock (chunks.foldl SseParser.feed s).buffer = none ∧
    s.output.append (scanLines [] [] (s.buffer ++ chunks.flatMap normalizeLineEnds)) =
      (chunks.foldl SseParser.feed s).output.append
        (scanLines [] [] (chunks.foldl SseParser.feed s).buffer)
  := by
  induction chunks generalizing s with
  | nil =>
    rw [List.flatMap_nil, List.append_nil]
    exact ⟨hs, rfl⟩
  | cons chunk chunks ih =>
    obtain ⟨hnone, hmore⟩ := feed_spec s chunk
    obtain ⟨hlast, heq⟩ := ih (s.feed chunk) hnone
    refine ⟨hlast, ?_⟩
    rw [List.flatMap_cons, ← List.append_assoc, hmore, heq]
    rfl

/-- The parser emits what the stream of its chunks has, each with its line ends rewritten. -/
theorem parseChunks_eq (chunks : List Text) :
  parseChunks chunks = scanLines [] [] (chunks.flatMap normalizeLineEnds)
  := by
  obtain ⟨hnone, heq⟩ := foldl_feed chunks {} rfl
  rw [scanLines_of_takeBlock_none (fun _ => .inl rfl) hnone, SseOutput.append_nil] at heq
  exact heq.symm

/-! ### Marks -/

theorem normalizeLineEnds_cons (c : Char) (text : Text) :
  normalizeLineEnds (c :: text) = (if c = '\r' then '\n' else c) ::
    normalizeLineEnds (if c = '\r' ∧ text.head? = some '\n' then text.tail else text)
  := by
  cases text with
  | nil => simp [normalizeLineEnds]
  | cons d text =>
    rw [normalizeLineEnds]
    by_cases hcr : c = '\r'
    · by_cases hlf : d = '\n'
      · simp [hcr, hlf]
      · simp [hcr, hlf]
    · simp [hcr]

theorem normalizeLineEnds_newline (text : Text) :
  normalizeLineEnds ('\n' :: text) = '\n' :: normalizeLineEnds text
  := by
  rw [normalizeLineEnds_cons]
  rfl

theorem normalizeLineEnds_crlf (text : Text) :
  normalizeLineEnds ('\r' :: '\n' :: text) = '\n' :: normalizeLineEnds text
  := by
  rw [normalizeLineEnds_cons]
  rfl

/-- Line ends are rewritten piece by piece, but for a line end that is divided. -/
theorem normalizeLineEnds_append (a b : Text) :
  normalizeLineEnds (a ++ b) = normalizeLineEnds a ++
    (if a.getLast? = some '\r' ∧ b.head? = some '\n' then (normalizeLineEnds b).tail
      else normalizeLineEnds b)
  := by
  induction a using normalizeLineEnds.induct with
  | case1 => rfl
  | case2 c =>
    rw [List.singleton_append, normalizeLineEnds_cons, normalizeLineEnds, List.getLast?_singleton]
    by_cases hdivided : c = '\r' ∧ b.head? = some '\n'
    · obtain ⟨rfl, hhead⟩ := hdivided
      obtain ⟨rest, rfl⟩ : ∃ rest, b = '\n' :: rest := List.head?_eq_some_iff.mp hhead
      rw [normalizeLineEnds_newline]
      rfl
    · have hlast : ¬ (some c = some '\r' ∧ b.head? = some '\n') :=
        fun h => hdivided ⟨Option.some.inj h.1, h.2⟩
      rw [if_neg hdivided, if_neg hlast]
      rfl
  | case3 c d rest hcrlf ih =>
    obtain ⟨rfl, rfl⟩ := hcrlf
    rw [List.cons_append, List.cons_append, normalizeLineEnds_crlf, ih, normalizeLineEnds_crlf]
    cases rest with
    | nil => simp
    | cons e rest => simp [List.getLast?_cons_cons]
  | case4 c d rest hcrlf ih =>
    rw [List.cons_append] at ih
    rw [List.cons_append, List.cons_append, normalizeLineEnds, if_neg hcrlf, ih,
      normalizeLineEnds, if_neg hcrlf, List.getLast?_cons_cons]
    rfl

theorem map_some_getD (text : Text) :
  (text.map some).map (fun c => c.getD '\n') = text
  := by
  rw [List.map_map]
  exact List.map_id text

theorem map_markedStream (afterReturn : Bool) (chunks : List Text) :
  (markedStream afterReturn chunks).map (fun c => c.getD '\n') = chunks.flatMap normalizeLineEnds
  := by
  induction chunks generalizing afterReturn with
  | nil => rfl
  | cons chunk chunks ih =>
    rw [markedStream, List.flatMap_cons]
    by_cases hempty : chunk = []
    · rw [if_pos hempty, hempty]
      exact ih afterReturn
    · rw [if_neg hempty, List.map_append, ih]
      congr 1
      split
      case isTrue hmark =>
        obtain ⟨rest, rfl⟩ : ∃ rest, chunk = '\n' :: rest := List.head?_eq_some_iff.mp hmark.2
        rw [normalizeLineEnds_newline, List.map_cons, List.tail_cons, map_some_getD]
        rfl
      case isFalse => exact map_some_getD _

theorem filterMap_markedStream (afterReturn : Bool) (chunks : List Text) :
  (markedStream afterReturn chunks).filterMap id =
    if afterReturn = true ∧ chunks.flatten.head? = some '\n' then
      (normalizeLineEnds chunks.flatten).tail
    else normalizeLineEnds chunks.flatten
  := by
  induction chunks generalizing afterReturn with
  | nil => simp [markedStream, normalizeLineEnds]
  | cons chunk chunks ih =>
    rw [markedStream, List.flatten_cons]
    by_cases hempty : chunk = []
    · rw [if_pos hempty, hempty]
      exact ih afterReturn
    · obtain ⟨c, rest, rfl⟩ := List.exists_cons_of_ne_nil hempty
      rw [if_neg hempty, List.filterMap_append, ih, normalizeLineEnds_append, List.cons_append,
        List.head?_cons, List.head?_cons]
      simp only [decide_eq_true_eq]
      generalize (if List.getLast? (c :: rest) = some '\r' ∧ chunks.flatten.head? = some '\n' then
        (normalizeLineEnds chunks.flatten).tail else normalizeLineEnds chunks.flatten) = more
      split
      case isTrue hmark =>
        rw [normalizeLineEnds_cons, List.cons_append, List.tail_cons]
        simp
      case isFalse => simp

/-- Marks stand at the start of lines only. -/
def MarksAtStart : Bool → List (Option Char) → Prop
  | _, [] => True
  | atStart, none :: stream => atStart = true ∧ MarksAtStart true stream
  | _, some c :: stream => MarksAtStart (c = '\n') stream

theorem marksAtStart_append (text : Text) (atStart : Bool) (stream : List (Option Char)) :
  MarksAtStart atStart (text.map some ++ stream) ↔
    MarksAtStart (text.foldl (fun _ c => decide (c = '\n')) atStart) stream
  := by
  induction text generalizing atStart with
  | nil => exact Iff.rfl
  | cons c text ih => exact ih _

/-- After a carriage return a line starts. -/
theorem foldl_normalizeLineEnds {chunk : Text} (h : chunk.getLast? = some '\r') (atStart : Bool) :
  (normalizeLineEnds chunk).foldl (fun _ c => decide (c = '\n')) atStart = true
  := by
  obtain ⟨front, rfl⟩ : ∃ front, chunk = front ++ ['\r'] := List.getLast?_eq_some_iff.mp h
  rw [normalizeLineEnds_append, if_neg (by simp), List.foldl_append]
  rfl

theorem marksAtStart_markedStream {afterReturn atStart : Bool}
    (h : afterReturn = true → atStart = true) (chunks : List Text) :
  MarksAtStart atStart (markedStream afterReturn chunks)
  := by
  induction chunks generalizing afterReturn atStart with
  | nil => trivial
  | cons chunk chunks ih =>
    rw [markedStream]
    by_cases hempty : chunk = []
    · rw [if_pos hempty]
      exact ih h
    · rw [if_neg hempty]
      split
      case isTrue hmark =>
        obtain ⟨rest, rfl⟩ : ∃ rest, chunk = '\n' :: rest := List.head?_eq_some_iff.mp hmark.2
        rw [normalizeLineEnds_newline, List.tail_cons, List.cons_append]
        refine ⟨h hmark.1, ?_⟩
        rw [marksAtStart_append]
        apply ih
        intro hlast
        have hfold := foldl_normalizeLineEnds (of_decide_eq_true hlast) true
        rw [normalizeLineEnds_newline] at hfold
        exact hfold
      case isFalse =>
        rw [marksAtStart_append]
        apply ih
        exact fun hlast => foldl_normalizeLineEnds (of_decide_eq_true hlast) atStart

/-! ### Blocks and their parts -/

/-- What is emitted for blocks. -/
def emitted (blocks : List (List Text)) : SseOutput :=
  ⟨blocks.flatMap (fun lines => (blockOutput lines).frames),
    blocks.flatMap (fun lines => (blockOutput lines).comments)⟩

theorem emitted_append (a b : List (List Text)) :
  emitted (a ++ b) = (emitted a).append (emitted b)
  := by
  simp [emitted, SseOutput.append]

theorem emitted_singleton (lines : List Text) :
  emitted [lines] = blockOutput lines
  := by
  simp [emitted]

/-- With the added empty lines, the parts of the blocks are emitted. -/
theorem scanLines_parts {stream : List (Option Char)} {atStart : Bool} {line : Text}
    (hmarks : MarksAtStart atStart stream) (hline : atStart = true → line = [])
    (parts : List (List Text)) (part : List Text) :
  (emitted parts).append (scanLines part line (stream.map (fun c => c.getD '\n'))) =
    emitted ((markedBlocks parts part (markedLines line stream)).1.flatten ++
      (markedBlocks parts part (markedLines line stream)).2.dropLast)
  := by
  induction stream generalizing atStart line parts part with
  | nil =>
    rw [markedLines, markedBlocks, List.flatten_nil, List.nil_append, List.dropLast_concat]
    exact SseOutput.append_nil _
  | cons c stream ih =>
    cases c with
    | none =>
      obtain ⟨hstart, hmarks⟩ := hmarks
      obtain rfl := hline hstart
      have hnext := ih hmarks (fun _ => rfl) (parts ++ [part]) []
      rw [emitted_append, emitted_singleton, SseOutput.append_assoc] at hnext
      rw [markedLines, markedBlocks, ← hnext]
      rfl
    | some c =>
      rw [List.map_cons, Option.getD_some, scanLines, markedLines]
      by_cases hnewline : c = '\n'
      · rw [if_pos hnewline, if_pos hnewline]
        have hmarks : MarksAtStart true stream := by
          rw [← decide_eq_true hnewline]
          exact hmarks
        cases line with
        | nil =>
          have hnext := ih hmarks (fun _ => rfl) [] []
          rw [if_pos rfl, markedBlocks, List.flatten_cons, List.append_assoc, emitted_append,
            ← hnext, emitted_append, emitted_singleton, SseOutput.append_assoc]
          rfl
        | cons d line =>
          rw [if_neg (List.cons_ne_nil d line), markedBlocks]
          exact ih hmarks (fun _ => rfl) parts (part ++ [d :: line])
      · rw [if_neg hnewline, if_neg hnewline]
        apply @ih false (line ++ [c]) _ (fun h => nomatch h)
        rw [← decide_eq_false hnewline]
        exact hmarks

/-- Without them, the blocks. -/
theorem scanLines_blocks (stream : List (Option Char)) (line : Text) (parts : List (List Text))
    (part : List Text) :
  scanLines (parts.flatten ++ part) line (stream.filterMap id) =
    emitted ((markedBlocks parts part (markedLines line stream)).1.map List.flatten)
  := by
  induction stream generalizing line parts part with
  | nil => rfl
  | cons c stream ih =>
    cases c with
    | none =>
      have hnext := ih line (parts ++ [part]) []
      rw [List.flatten_append, List.flatten_singleton, List.append_nil] at hnext
      exact hnext
    | some c =>
      rw [List.filterMap_cons_some (f := id) (b := c) rfl, scanLines, markedLines]
      by_cases hnewline : c = '\n'
      · rw [if_pos hnewline, if_pos hnewline]
        cases line with
        | nil =>
          have hnext := ih [] [] []
          rw [if_pos rfl, markedBlocks, List.map_cons, ← List.singleton_append (l := List.map _ _),
            emitted_append, emitted_singleton, ← hnext, List.flatten_append,
            List.flatten_singleton]
          rfl
        | cons d line =>
          have hnext := ih [] parts (part ++ [d :: line])
          rw [← List.append_assoc] at hnext
          rw [if_neg (List.cons_ne_nil d line)]
          exact hnext
      · rw [if_neg hnewline, if_neg hnewline]
        exact ih (line ++ [c]) parts part

theorem parseChunks_divided (chunks : List Text) :
  parseChunks chunks =
      emitted ((dividedBlocks chunks).1.flatten ++ (dividedBlocks chunks).2.dropLast) ∧
    parseChunks [chunks.flatten] = emitted ((dividedBlocks chunks).1.map List.flatten)
  := by
  constructor
  · rw [parseChunks_eq, ← map_markedStream false]
    exact scanLines_parts (marksAtStart_markedStream (fun h => h) chunks) (fun _ => rfl) [] []
  · have hstream := filterMap_markedStream false chunks
    rw [if_neg (fun h => Bool.false_ne_true h.1)] at hstream
    rw [parseChunks_eq, List.flatMap_singleton, ← hstream]
    exact scanLines_blocks _ [] [] []

/-! ### Harmless cuts -/

/-- Lines have the fields of an event. -/
def HasEvent (lines : List Text) : Prop :=
  (blockFields lines).event ≠ [] ∨ (blockFields lines).data ≠ []

/-- The parts of a block make the event of the block: one of them has its fields, and no later one
takes away its name. -/
def KeepsEvent (parts : List (List Text)) : Prop :=
  ∀ before part after, parts = before ++ part :: after → HasEvent part →
    (∀ other ∈ before ++ after, ¬ HasEvent other) ∧
    ((∀ other ∈ after, other.any namesEvent = false) ∨
      ((blockFields part).data ≠ [] ∧
        ((blockFields part).event = [] ∨ (blockFields part).event = "message".toList)))

/-- The cuts between a carriage return and its line feed change nothing: every block keeps its
event, and of the unfinished block nothing comes before the last of them. -/
def CutsHarmless (chunks : List Text) : Prop :=
  (∀ parts ∈ (dividedBlocks chunks).1, KeepsEvent parts) ∧
  ∀ part ∈ (dividedBlocks chunks).2.dropLast, ¬ HasEvent part ∧ (blockFields part).comments = []

theorem frames_eq_nil_iff (lines : List Text) :
  (blockOutput lines).frames = [] ↔ ¬ HasEvent lines
  := by
  rw [HasEvent, blockFields, blockOutput]
  dsimp only
  split
  case isTrue h => exact iff_of_false (List.cons_ne_nil _ _) (not_not.mpr h)
  case isFalse h => exact iff_of_true rfl h

theorem frames_of_hasEvent {lines : List Text} (h : HasEvent lines) :
  (blockOutput lines).frames =
    [⟨if (blockFields lines).event = [] then "message".toList else (blockFields lines).event,
      joinLines (blockFields lines).data⟩]
  := if_pos h

/-- Lines without an event have no data, and name no event. -/
theorem fields_of_not_hasEvent {lines : List Text} (h : ¬ HasEvent lines) :
  (blockFields lines).event = [] ∧ (blockFields lines).data = []
  := by
  rw [HasEvent, not_or, not_not, not_not] at h
  exact h

theorem event_of_any_eq_false {lines : List Text} (h : lines.any namesEvent = false) :
  (blockFields lines).event = []
  := by
  have hfields := congrArg BlockFields.event (foldl_readLine lines {})
  rw [h] at hfields
  exact hfields

theorem frames_congr {a b : List Text} (hevent : (blockFields a).event = (blockFields b).event)
    (hdata : (blockFields a).data = (blockFields b).data) :
  (blockOutput a).frames = (blockOutput b).frames
  := by
  rw [blockFields, blockFields] at hevent hdata
  simp only [blockOutput, hevent, hdata]

theorem frames_append_left {a : List Text} (h : ¬ HasEvent a) (b : List Text) :
  (blockOutput (a ++ b)).frames = (blockOutput b).frames
  := by
  obtain ⟨hevent, hdata⟩ := fields_of_not_hasEvent h
  apply frames_congr
  · rw [blockFields_append]
    dsimp only
    split
    case isTrue => rfl
    case isFalse hnone =>
      rw [hevent, event_of_any_eq_false (Bool.eq_false_iff.mpr hnone)]
  · rw [blockFields_append, hdata]
    rfl

/-- A part with an event makes the event of its block, unless a later one takes away its name. -/
theorem frames_append_right {a b : List Text} (ha : HasEvent a) (hb : ¬ HasEvent b) :
  (blockOutput a).frames = (blockOutput (a ++ b)).frames ↔
    b.any namesEvent = false ∨ ((blockFields a).data ≠ [] ∧
      ((blockFields a).event = [] ∨ (blockFields a).event = "message".toList))
  := by
  obtain ⟨hevent, hdata⟩ := fields_of_not_hasEvent hb
  have hfields := blockFields_append a b
  rw [hevent, hdata, List.append_nil] at hfields
  cases hnames : b.any namesEvent with
  | false =>
    rw [hnames] at hfields
    apply iff_of_true _ (.inl rfl)
    apply frames_congr
    · rw [hfields]
      rfl
    · rw [hfields]
  | true =>
    rw [hnames, if_pos rfl] at hfields
    rw [or_iff_right Bool.false_ne_true.symm]
    by_cases hempty : (blockFields a).data = []
    · have hnone : ¬ HasEvent (a ++ b) := by
        rw [HasEvent, hfields, hempty]
        simp
      rw [(frames_eq_nil_iff _).mpr hnone, frames_eq_nil_iff]
      exact iff_of_false (not_not.mpr ha) (fun h => h.1 hempty)
    · have hsome : HasEvent (a ++ b) := by
        rw [HasEvent, hfields]
        exact .inr hempty
      rw [frames_of_hasEvent ha, frames_of_hasEvent hsome, hfields, if_pos rfl,
        and_iff_right hempty, List.singleton_inj, SseFrame.mk.injEq, and_iff_left rfl]
      by_cases hname : (blockFields a).event = []
      · rw [if_pos hname]
        exact iff_of_true rfl (.inl hname)
      · rw [if_neg hname, or_iff_right hname]

theorem length_frames_le (lines : List Text) :
  (blockOutput lines).frames.length ≤ 1
  := by
  by_cases h : HasEvent lines
  · rw [frames_of_hasEvent h]
    exact Nat.le_refl 1
  · rw [(frames_eq_nil_iff lines).mpr h]
    exact Nat.zero_le 1

theorem not_hasEvent_flatten {parts : List (List Text)} (h : ∀ part ∈ parts, ¬ HasEvent part) :
  ¬ HasEvent parts.flatten
  := by
  induction parts with
  | nil => exact fun hevent => hevent.elim (fun h => h rfl) (fun h => h rfl)
  | cons part parts ih =>
    rw [List.flatten_cons, ← frames_eq_nil_iff, frames_append_left (h part List.mem_cons_self),
      frames_eq_nil_iff]
    exact ih (fun other hother => h other (List.mem_cons_of_mem part hother))

theorem KeepsEvent.cons_iff {part : List Text} (h : ¬ HasEvent part) (parts : List (List Text)) :
  KeepsEvent (part :: parts) ↔ KeepsEvent parts
  := by
  constructor
  · intro hkeeps before other after heq hevent
    obtain ⟨hothers, hname⟩ := hkeeps (part :: before) other after (by rw [heq]; rfl) hevent
    exact ⟨fun more hmore => hothers more (List.mem_cons_of_mem part hmore), hname⟩
  · intro hkeeps before other after heq hevent
    cases before with
    | nil =>
      rw [List.nil_append, List.cons.injEq] at heq
      exact absurd (heq.1 ▸ hevent) h
    | cons first before =>
      rw [List.cons_append, List.cons.injEq] at heq
      obtain ⟨rfl, heq⟩ := heq
      obtain ⟨hothers, hname⟩ := hkeeps before other after heq hevent
      refine ⟨fun more hmore => ?_, hname⟩
      obtain rfl | hmore := List.mem_cons.mp hmore
      · exact h
      · exact hothers more hmore

theorem KeepsEvent.cons_of_hasEvent {part : List Text} (h : HasEvent part)
    (parts : List (List Text)) :
  KeepsEvent (part :: parts) ↔ (∀ other ∈ parts, ¬ HasEvent other) ∧
    (parts.flatten.any namesEvent = false ∨ ((blockFields part).data ≠ [] ∧
      ((blockFields part).event = [] ∨ (blockFields part).event = "message".toList)))
  := by
  have hnames : parts.flatten.any namesEvent = false ↔
      ∀ other ∈ parts, other.any namesEvent = false := by
    rw [List.any_flatten, List.any_eq_false]
    simp only [Bool.not_eq_true]
  rw [hnames]
  constructor
  · exact fun hkeeps => hkeeps [] part parts rfl h
  · intro hothers before other after heq hevent
    cases before with
    | nil =>
      rw [List.nil_append, List.cons.injEq] at heq
      obtain ⟨rfl, rfl⟩ := heq
      exact hothers
    | cons first before =>
      rw [List.cons_append, List.cons.injEq] at heq
      obtain ⟨rfl, rfl⟩ := heq
      exact absurd hevent (hothers.1 other (by simp))

theorem keepsEvent_iff (parts : List (List Text)) :
  parts.flatMap (fun part => (blockOutput part).frames) = (blockOutput parts.flatten).frames ↔
    KeepsEvent parts
  := by
  induction parts with
  | nil =>
    apply iff_of_true rfl
    intro before part after heq
    cases before with
    | nil => cases heq
    | cons first before => cases heq
  | cons part parts ih =>
    rw [List.flatMap_cons, List.flatten_cons]
    by_cases hpart : HasEvent part
    · have hnone : parts.flatMap (fun part => (blockOutput part).frames) = [] ↔
          ∀ other ∈ parts, ¬ HasEvent other := by
        simp only [List.flatMap_eq_nil_iff, frames_eq_nil_iff]
      rw [KeepsEvent.cons_of_hasEvent hpart]
      constructor
      · intro heq
        have hlength := congrArg List.length heq
        have hle := length_frames_le (part ++ parts.flatten)
        rw [List.length_append, frames_of_hasEvent hpart, List.length_singleton] at hlength
        have hempty := List.eq_nil_of_length_eq_zero
          (by omega : (parts.flatMap (fun part => (blockOutput part).frames)).length = 0)
        have hothers := hnone.mp hempty
        rw [hempty, List.append_nil] at heq
        exact ⟨hothers, (frames_append_right hpart (not_hasEvent_flatten hothers)).mp heq⟩
      · intro ⟨hothers, hname⟩
        rw [hnone.mpr hothers, List.append_nil]
        exact (frames_append_right hpart (not_hasEvent_flatten hothers)).mpr hname
    · rw [(frames_eq_nil_iff part).mpr hpart, List.nil_append, frames_append_left hpart, ih,
        KeepsEvent.cons_iff hpart]

theorem comments_flatten (parts : List (List Text)) :
  parts.flatMap (fun part => (blockOutput part).comments) = (blockOutput parts.flatten).comments
  := by
  induction parts with
  | nil => rfl
  | cons part parts ih =>
    rw [List.flatMap_cons, List.flatten_cons, ih]
    exact (congrArg BlockFields.comments (blockFields_append part parts.flatten)).symm

theorem flatMap_flatten {α β : Type} (f : α → List β) (l : List (List α)) :
  l.flatten.flatMap f = l.flatMap (List.flatMap f)
  := by
  rw [← List.flatMap_id, List.flatMap_assoc]
  rfl

theorem length_flatMap_le {α β : Type} {f g : α → List β} {l : List α}
    (h : ∀ a ∈ l, (g a).length ≤ (f a).length) :
  (l.flatMap g).length ≤ (l.flatMap f).length
  := by
  induction l with
  | nil => exact Nat.le_refl 0
  | cons a l ih =>
    rw [List.flatMap_cons, List.flatMap_cons, List.length_append, List.length_append]
    exact Nat.add_le_add (h a List.mem_cons_self)
      (ih (fun b hb => h b (List.mem_cons_of_mem a hb)))

/-- Lists that are made of longer pieces, and of more of them, are equal when their pieces are. -/
theorem flatMap_append_eq_iff {α β : Type} (f g : α → List β) (l : List α) (extra : List β)
    (h : ∀ a ∈ l, (g a).length ≤ (f a).length) :
  l.flatMap f ++ extra = l.flatMap g ↔ (∀ a ∈ l, f a = g a) ∧ extra = []
  := by
  induction l with
  | nil => simp
  | cons a l ih =>
    have hl : ∀ b ∈ l, (g b).length ≤ (f b).length := fun b hb => h b (List.mem_cons_of_mem a hb)
    rw [List.flatMap_cons, List.flatMap_cons, List.append_assoc, List.forall_mem_cons, and_assoc,
      ← ih hl]
    constructor
    · intro heq
      have hlength := congrArg List.length heq
      have hhead := h a List.mem_cons_self
      have htail := length_flatMap_le hl
      simp only [List.length_append] at hlength
      exact List.append_inj heq (by omega)
    · rintro ⟨hhead, htail⟩
      rw [hhead, htail]

theorem length_frames_flatten_le (parts : List (List Text)) :
  (blockOutput parts.flatten).frames.length ≤
    (parts.flatMap (fun part => (blockOutput part).frames)).length
  := by
  by_cases hnone : ∀ part ∈ parts, ¬ HasEvent part
  · rw [(frames_eq_nil_iff _).mpr (not_hasEvent_flatten hnone)]
    exact Nat.zero_le _
  · push Not at hnone
    obtain ⟨part, hpart, hevent⟩ := hnone
    apply Nat.le_trans (length_frames_le parts.flatten)
    apply List.length_pos_of_ne_nil
    intro hnil
    exact (frames_eq_nil_iff part).mp (List.flatMap_eq_nil_iff.mp hnil part hpart) hevent

/-- A stream in chunks gives what the whole stream gives, exactly when the cuts between a carriage
return and its line feed are harmless. -/
theorem parseChunks_eq_iff (chunks : List Text) :
  parseChunks chunks = parseChunks [chunks.flatten] ↔ CutsHarmless chunks
  := by
  obtain ⟨hcut, hwhole⟩ := parseChunks_divided chunks
  rw [hcut, hwhole, CutsHarmless]
  generalize dividedBlocks chunks = divided
  obtain ⟨finished, unfinished⟩ := divided
  have hframes := flatMap_append_eq_iff
    (fun parts : List (List Text) => parts.flatMap (fun part => (blockOutput part).frames))
    (fun parts => (blockOutput parts.flatten).frames) finished
    (unfinished.dropLast.flatMap (fun part => (blockOutput part).frames))
    (fun parts _ => length_frames_flatten_le parts)
  simp only [keepsEvent_iff, List.flatMap_eq_nil_iff, frames_eq_nil_iff] at hframes
  simp only [emitted, SseOutput.mk.injEq, List.flatMap_append, flatMap_flatten, List.flatMap_map]
  have hcomments : finished.flatMap (List.flatMap (fun part => (blockOutput part).comments)) =
      finished.flatMap (fun parts => (blockOutput parts.flatten).comments) := by
    congr 1
    funext parts
    exact comments_flatten parts
  rw [hcomments, List.append_right_eq_self, List.flatMap_eq_nil_iff]
  apply (and_congr_left' hframes).trans
  rw [and_assoc]
  apply and_congr_right
  intro _
  constructor
  · exact fun h part hpart => ⟨h.1 part hpart, h.2 part hpart⟩
  · exact fun h => ⟨fun part hpart => (h part hpart).1, fun part hpart => (h part hpart).2⟩

/-- A chunk ends between the carriage return and the line feed after the first field. -/
def sampleCut : List Text :=
  ["event: ready\r".toList, "\ndata: \x7b\x7d\r\n\r\n".toList]

theorem parseChunks_cut :
  parseChunks sampleCut =
    ⟨[⟨"ready".toList, []⟩, ⟨"message".toList, "\x7b\x7d".toList⟩], []⟩ ∧
  parseChunks [sampleCut.flatten] = ⟨[⟨"ready".toList, "\x7b\x7d".toList⟩], []⟩
  := by
  decide

end AgentFs

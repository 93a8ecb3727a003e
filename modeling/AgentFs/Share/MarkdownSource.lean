import AgentFs.Lib.Matches
import AgentFs.Share.Prose

/-!
# Math and footnotes

What `share/markdown.ts` cuts out of the source of a document before it is parsed: frontmatter,
definitions of footnotes, math and references to footnotes.  Math and references are kept in
slots, and placeholders stand for them in the prose.
-/

namespace AgentFs

/-! ### Placeholders -/

/-- Private-use code points that do not survive from the source. -/
def phOpen : Char := '\uE000'

def phClose : Char := '\uE001'

/-- Something that was cut out. -/
inductive Slot where
  | math (display : Bool) (tex raw : Text)
  | fnref (id raw : Text)
  deriving DecidableEq, Repr

def Slot.raw : Slot → Text
  | math _ _ raw => raw
  | fnref _ raw => raw

/-- The placeholder of a slot. -/
def placeholder (i : Nat) : Text :=
  phOpen :: (decimal i ++ [phClose])

/-- The placeholder code points can only come from the renderer. -/
def stripPlaceholders (text : Text) : Text :=
  text.map (fun c => if c = phOpen ∨ c = phClose then '\uFFFD' else c)

/-! ### Matches of regular expressions -/

/-- The characters `\w`. -/
def isWord (c : Char) : Bool :=
  c.isAlphanum || c = '_'

/-- The text before the next two dollars. -/
def untilDollars : Text → Option Text
  | [] => none
  | [_] => none
  | c :: d :: text =>
      if c = '$' ∧ d = '$' then some [] else (untilDollars (d :: text)).map (c :: ·)

/-- `DISPLAY_MATH`. -/
def displayMath (_ : Text) : Text → Option (Nat × Text)
  | '$' :: '$' :: c :: text => (untilDollars text).map (fun tex => (tex.length + 5, c :: tex))
  | _ => none

/-- A character or an escaped character of inline math, its last character and the rest. -/
def inlineUnit : Text → Option (Text × Char × Text)
  | '\\' :: c :: rest =>
      if c ∈ ['\n', '\r', '\u2028', '\u2029'] then none else some (['\\', c], c, rest)
  | c :: rest => if c ∈ ['$', '\\', '\n'] then none else some ([c], c, rest)
  | [] => none

/-- The dollar after the last character closes inline math. -/
def closesMath (last : Char) (rest : Text) : Bool :=
  ¬ IsWhiteSpace last && last ≠ '\\' && rest.head? = some '$' &&
    ¬ rest.tail.head?.any (fun c => isWord c || c = '$')

/-- The inside of inline math, which is at most so many characters or escaped characters. -/
def inlineTex : Nat → Text → Option Text
  | 0, _ => none
  | fuel + 1, text =>
      match inlineUnit text with
      | none => none
      | some (taken, last, rest) =>
          if closesMath last rest then some taken
          else (inlineTex fuel rest).map (taken ++ ·)

/-- `INLINE_MATH`. -/
def inlineMath (before : Text) : Text → Option (Nat × Text)
  | '$' :: text =>
      if before.head?.any (fun c => c = '\\' || c = '$' || isWord c) ∨
          text.head?.any (fun c => IsWhiteSpace c || c = '$') then none
      else (inlineTex 500 text).map (fun tex => (tex.length + 2, tex))
  | _ => none

def isFootnoteIdChar (c : Char) : Bool :=
  c.isAlphanum || c = '_' || c = '-'

/-- The id of a footnote and what comes after its closing bracket. -/
def footnoteId : Text → Option (Text × Text)
  | '[' :: '^' :: text =>
      let id := text.takeWhile isFootnoteIdChar
      let rest := text.drop id.length
      if 1 ≤ id.length ∧ id.length ≤ 64 ∧ rest.head? = some ']' then some (id, rest.tail) else none
  | _ => none

/-- `FOOTNOTE_REF`. -/
def footnoteRef (_ text : Text) : Option (Nat × Text) :=
  (footnoteId text).map (fun found => (found.1.length + 3, found.1))

/-! ### Slots -/

/-- A text whose matches are kept in slots, and the slots. -/
def cutOut : List Slot → List (Char ⊕ Slot) → Text × List Slot
  | slots, [] => ([], slots)
  | slots, .inl c :: pieces =>
      let after := cutOut slots pieces
      (c :: after.1, after.2)
  | slots, .inr slot :: pieces =>
      let after := cutOut (slots ++ [slot]) pieces
      (placeholder slots.length ++ after.1, after.2)

/-- A match as a slot, or as text if it has none. -/
def slotPiece {α : Type} (slot : Text → α → Option Slot) : Char ⊕ Text × α → List (Char ⊕ Slot)
  | .inl c => [.inl c]
  | .inr (raw, found) =>
      match slot raw found with
      | some s => [.inr s]
      | none => raw.map .inl

/-- `text.replace(pattern, ..)` with a slot for every match that has one. -/
def replaceWithSlots {α : Type} (matcher : Text → Text → Option (Nat × α))
    (slot : Text → α → Option Slot) (text : Text) (slots : List Slot) : Text × List Slot :=
  cutOut slots ((Matches.scan matcher 0 [] text).flatMap (slotPiece slot))

/-- `prose`: three replacements, one after the other. -/
def cutProse (defs : List (Text × Text)) (text : Text) (slots : List Slot) : Text × List Slot :=
  let display :=
    replaceWithSlots displayMath (fun raw tex => some (.math true (trim tex) raw)) text slots
  let inline :=
    replaceWithSlots inlineMath (fun raw tex => some (.math false tex raw)) display.1 display.2
  replaceWithSlots footnoteRef
    (fun raw id => if id ∈ defs.map Prod.fst then some (.fnref id raw) else none)
    inline.1 inline.2

/-- `mapProse` with `prose`, which appends to the slots. -/
def cutSpans (defs : List (Text × Text)) (text : Text) :
    Nat → List (Nat × Nat) → List Slot → Text × List Slot
  | last, [], slots => cutProse defs (text.drop last) slots
  | last, (start, stop) :: spans, slots =>
      let before := cutProse defs (sliceText text last start) slots
      let after := cutSpans defs text stop spans before.2
      (before.1 ++ sliceText text start stop ++ after.1, after.2)

/-- The text of a chunk of a body. -/
def cutChunk (defs : List (Text × Text)) (chunk : FenceChunk) (slots : List Slot) :
    Text × List Slot :=
  if chunk.code then (chunk.text, slots)
  else cutSpans defs chunk.text 0 (codeSpans chunk.text) slots

def cutChunks (defs : List (Text × Text)) : List FenceChunk → List Slot → List Text × List Slot
  | [], slots => ([], slots)
  | chunk :: chunks, slots =>
      let cut := cutChunk defs chunk slots
      let after := cutChunks defs chunks cut.2
      (cut.1 :: after.1, after.2)

def cutBody (defs : List (Text × Text)) (body : Text) (slots : List Slot) : Text × List Slot :=
  let cut := cutChunks defs (splitFences body) slots
  (joinedLines cut.1, cut.2)

/-! ### Definitions of footnotes -/

/-- A text without the blank at its start. -/
def dropBlank (text : Text) : Text :=
  if text.head?.any (fun c => c = ' ' || c = '\t') then text.tail else text

/-- `FOOTNOTE_DEF`: the id and the text of a line that defines a footnote. -/
def footnoteDef (line : Text) : Option (Text × Text) :=
  match footnoteId line with
  | some (id, ':' :: rest) =>
      let text := dropBlank rest
      if text.any (fun c => c ∈ ['\n', '\r', '\u2028', '\u2029']) then none else some (id, text)
  | _ => none

/-- A line that continues a definition. -/
def continuesDef (line : Text) : Bool :=
  let spaces := line.takeWhile (· = ' ')
  let rest := if line.head? = some '\t' then line.tail else line.drop spaces.length
  (line.head? = some '\t' || 2 ≤ spaces.length) && rest.head?.any (fun c => ¬ IsWhiteSpace c)

/-- The kept lines and the definitions of lines; while it is in a definition, the loop has its id
and its parts. -/
def defLines : Option (Text × List Text) → List Text → List Text × List (Text × Text)
  | none, [] => ([], [])
  | some (id, parts), [] => ([], [(id, joinedLines parts)])
  | none, line :: lines =>
      match footnoteDef line with
      | some (id, text) => defLines (some (id, [text])) lines
      | none =>
          let after := defLines none lines
          (line :: after.1, after.2)
  | some (id, parts), line :: lines =>
      if continuesDef line then defLines (some (id, parts ++ [trim line])) lines
      else
        match footnoteDef line with
        | some (id', text) =>
            let after := defLines (some (id', [text])) lines
            (after.1, (id, joinedLines parts) :: after.2)
        | none =>
            let after := defLines none lines
            (line :: after.1, (id, joinedLines parts) :: after.2)

/-- Add a definition, unless its id is defined already. -/
def addDef (defs : List (Text × Text)) (found : Text × Text) : List (Text × Text) :=
  if found.1 ∈ defs.map Prod.fst then defs else defs ++ [found]

/-- The kept text and the definitions of a chunk. -/
def chunkDefs (chunk : FenceChunk) : Text × List (Text × Text) :=
  if chunk.code then (chunk.text, [])
  else
    let found := defLines none (chunk.text.splitOn '\n')
    (joinedLines found.1, found.2)

/-- The definitions of the footnotes of a body, and the body without them. -/
def extractFootnoteDefs (body : Text) : Text × List (Text × Text) :=
  let chunks := (splitFences body).map chunkDefs
  (joinedLines (chunks.map Prod.fst), (chunks.flatMap Prod.snd).foldl addDef [])

/-! ### Frontmatter -/

/-- The length of a line end. -/
def lineEnd : Text → Option Nat
  | '\r' :: '\n' :: _ => some 2
  | '\n' :: _ => some 1
  | _ => none

/-- The length of the line end and the line that close frontmatter. -/
def frontmatterClose (text : Text) : Option Nat :=
  (lineEnd text).bind (fun n =>
    let line := text.drop n
    if line.take 3 = "---".toList ∨ line.take 3 = "...".toList then
      let blanks := ((line.drop 3).takeWhile (fun c => c = ' ' || c = '\t')).length
      let rest := line.drop (3 + blanks)
      if rest = [] then some (n + 3 + blanks) else (lineEnd rest).map (n + 3 + blanks + ·)
    else none)

/-- The length of the frontmatter from its first line on, and of what closes it. -/
def frontmatterEnd : Text → Option (Nat × Nat)
  | [] => none
  | c :: text =>
      match frontmatterClose (c :: text) with
      | some n => some (0, n)
      | none => (frontmatterEnd text).map (fun (len, n) => (len + 1, n))

def maxFrontmatterChars : Nat := 32 * 1024

/-- The length of the frontmatter at the start of a text. -/
def frontmatterLength (head : Text) : Option Nat :=
  let mark := if head.head? = some '\uFEFF' then 1 else 0
  let blanks := ((head.drop (mark + 3)).takeWhile (fun c => c = ' ' || c = '\t')).length
  if (head.drop mark).take 3 = "---".toList then
    match lineEnd (head.drop (mark + 3 + blanks)) with
    | none => none
    | some n =>
        match frontmatterEnd (head.drop (mark + 3 + blanks + n)) with
        | some (len, close) =>
            if len > maxFrontmatterChars then none else some (mark + 3 + blanks + n + len + close)
        | none => none
  else none

/-- The body of a source, without frontmatter. -/
def frontmatterBody (source : Text) : Text :=
  match frontmatterLength (source.take (maxFrontmatterChars + 16)) with
  | none => source
  | some len => source.drop len

end AgentFs

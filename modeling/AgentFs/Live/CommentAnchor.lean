import Mathlib.Data.List.Sort
import AgentFs.Lib.RegExp
import AgentFs.Live.LineRemap

/-!
# Comment anchors

`live/src/lib/comment-anchor.ts`: a comment stores a quote of the text it points at, with some
text on both sides, and the lines of the quote; they are resolved again in the current text.
Texts are lists of code units.  The Unicode functions of the runtime are a parameter.
-/

namespace AgentFs

open RegExp

abbrev Units := List CodeUnit

/-- What the resolution uses of Unicode. -/
structure AnchorUnicode where
  /-- `toLowerCase` of a single code unit. -/
  lowerUnit : CodeUnit → Units
  /-- `toLowerCase`. -/
  toLowerCase : Units → Units
  /-- The removal of what is neither a letter nor a number. -/
  lettersAndNumbers : Units → Units

/-! ### Inputs -/

structure AnchorQuote where
  exact : Units
  prefixText : Option Units := none
  suffixText : Option Units := none
  deriving DecidableEq, Repr

/-- The text that a viewer shows, with a mapping between its offsets and the lines of the
source where there is one. -/
structure TextSpace where
  text : Units
  lineRangeToOffsets : Option (Int → Int → Option (Nat × Nat)) := none
  offsetToLine : Option (Nat → Option Int) := none

/-- The source line of an offset. -/
def TextSpace.lineAt (space : TextSpace) (offset : Nat) : Option Int :=
  space.offsetToLine.bind (· offset)

structure AnchorInput where
  quote : Option AnchorQuote := none
  lineStart : Option Nat := none
  lineEnd : Option Nat := none
  stale : Bool := false
  changes : Option (List DiffChange) := none
  deriving DecidableEq, Repr

inductive AnchorStatus where
  | anchored
  | moved
  | lost
  deriving DecidableEq, Repr

inductive AnchorMethod where
  | quote
  | lines
  | quotePartial
  deriving DecidableEq, Repr

structure AnchorResolution where
  status : AnchorStatus
  method : Option AnchorMethod := none
  range : Option (Nat × Nat) := none
  lineStart : Option Int := none
  lineEnd : Option Int := none
  ambiguous : Bool := false
  deriving DecidableEq, Repr

/-- Characters that are captured on each side of a selection. -/
def quoteContextChars : Nat := 32

/-- The longest quote that is captured. -/
def quoteExactMax : Nat := 2000

/-- A part of a quote that is searched for has so many characters. -/
def partialChars : Nat := 32

def maxCandidates : Nat := 500

/-- `text.slice(start, stop)`. -/
def sliceUnits (text : Units) (start stop : Nat) : Units :=
  (text.drop start).take (stop - start)

def trimUnits (text : Units) : Units :=
  ((text.dropWhile isSpace).reverse.dropWhile isSpace).reverse

/-! ### Normalization -/

inductive Mode where
  | strict
  | loose
  deriving DecidableEq, Repr

/-- The code units of `norm`, each with its entry of `map`. -/
abbrev Normalized := List (CodeUnit × Nat)

def Normalized.norm (n : Normalized) : Units := n.map Prod.fst

/-- Markdown syntax that is in the source but not in the rendered text. -/
def looseDrop (ch : CodeUnit) : Bool :=
  isSpace ch || ch ∈ codeUnits "*_`~#>|\\[]"

/-- Runs of white space become one space. -/
def normalizeStrict : Nat → Bool → Units → Normalized
  | _, _, [] => []
  | i, inSpace, ch :: text =>
      if isSpace ch then
        (if inSpace then [] else [(codeUnit ' ', i)]) ++ normalizeStrict (i + 1) true text
      else (ch, i) :: normalizeStrict (i + 1) false text

variable (u : AnchorUnicode)

/-- White space and markdown syntax are dropped, letters become small. -/
def normalizeLoose : Nat → Units → Normalized
  | _, [] => []
  | i, ch :: text =>
      if looseDrop ch then normalizeLoose (i + 1) text
      else (u.lowerUnit ch).map (fun lower => (lower, i)) ++ normalizeLoose (i + 1) text

def normalize (text : Units) : Mode → Normalized
  | .strict => normalizeStrict 0 false text
  | .loose => normalizeLoose u 0 text

def normalizeNeedle (text : Units) : Mode → Units
  | .strict => trimUnits (normalize u text .strict).norm
  | .loose => (normalize u text .loose).norm

/-! ### Candidate search -/

structure Candidate where
  start : Nat
  stop : Nat
  /-- Found without markdown and case normalization. -/
  strict : Bool
  deriving DecidableEq, Repr

/-- The loop of `findAll`, which finds at most `limit` candidates. -/
def findAllFrom (needle : Units) (strict : Bool) : Nat → Normalized → List Candidate
  | 0, _ => []
  | _, [] => []
  | limit + 1, entry :: hay =>
      if needle <+: Normalized.norm (entry :: hay) then
        ⟨entry.2, (((entry :: hay)[needle.length - 1]?).map (·.2 + 1)).getD 0, strict⟩ ::
          findAllFrom needle strict limit hay
      else findAllFrom needle strict (limit + 1) hay

def findAll (hay : Normalized) (needle : Units) (strict : Bool) : List Candidate :=
  if needle = [] then [] else findAllFrom needle strict maxCandidates hay

def commonPrefixLength : Units → Units → Nat
  | a :: as, b :: bs => if a = b then commonPrefixLength as bs + 1 else 0
  | _, _ => 0

def commonSuffixLength (a b : Units) : Nat :=
  commonPrefixLength a.reverse b.reverse

/-- `text.replace(/\]\([^)\s]*\)?/g, "")`, in the target of a link or outside. -/
def stripLinkTargets : Bool → Units → Units
  | _, [] => []
  | true, c :: text =>
      if c = codeUnit ')' then stripLinkTargets false text
      else if isSpace c then c :: stripLinkTargets false text
      else stripLinkTargets true text
  | false, [c] => [c]
  | false, c :: d :: text =>
      if c = codeUnit ']' ∧ d = codeUnit '(' then stripLinkTargets true text
      else c :: stripLinkTargets false (d :: text)

/-- What of a context is compared. -/
def contextKey (text : Units) : Units :=
  u.lettersAndNumbers (u.toLowerCase (stripLinkTargets false text))

/-- Stray characters that either side may skip at the join. -/
def contextSkip : Nat := 3

/-- A shorter saved context says nothing either way. -/
def contextMin : Nat := 3

inductive Side where
  | prefixSide
  | suffixSide
  deriving DecidableEq, Repr

/-- `text.slice(0, text.length - a)`, which counts from the end when the bound is negative. -/
def sliceOff (text : Units) (a : Nat) : Units :=
  text.take (if a ≤ text.length then text.length - a else 2 * text.length - a)

/-- The match of two sides when so many characters are skipped. -/
def skipMatch (want got : Units) (side : Side) (a b : Nat) : Nat :=
  match side with
  | .prefixSide => commonSuffixLength (sliceOff want a) (sliceOff got b)
  | .suffixSide => commonPrefixLength (want.drop a) (got.drop b)

/-- Characters of `want` that match `got` outward from the quote. -/
def sideMatch (want got : Units) (side : Side) : Nat :=
  (List.range (contextSkip + 1)).foldl (fun best a =>
    (List.range (contextSkip + 1)).foldl (fun best b => max best (skipMatch want got side a b))
      best) 0

structure ContextMatch where
  score : Nat
  /-- Some saved side of the context disagrees with the occurrence. -/
  conflicts : Bool
  deriving DecidableEq, Repr

/-- The text on a side of a candidate that is compared with a saved one. -/
def sideWindow (text : Units) (c : Candidate) (saved : Units) : Side → Units
  | .prefixSide => sliceUnits text (c.start - saved.length * 3) c.start
  | .suffixSide => sliceUnits text c.stop (c.stop + saved.length * 3)

/-- The match of one saved side. -/
def matchSide (text : Units) (c : Candidate) (saved : Units) (side : Side) : ContextMatch :=
  let want := contextKey u saved
  let n := sideMatch want (contextKey u (sideWindow text c saved side)) side
  ⟨n, contextMin ≤ want.length ∧ n < min want.length (max 8 ((want.length + 1) / 2))⟩

/-- A saved side, if it is not empty. -/
def AnchorQuote.saved (quote : AnchorQuote) : Side → Option Units
  | .prefixSide => quote.prefixText.filter (· ≠ [])
  | .suffixSide => quote.suffixText.filter (· ≠ [])

/-- How well the text around a candidate matches the stored context. -/
def contextMatch (text : Units) (c : Candidate) (quote : AnchorQuote) : ContextMatch :=
  [Side.prefixSide, .suffixSide].foldl (fun found side =>
    match quote.saved side with
    | none => found
    | some saved =>
        let m := matchSide u text c saved side
        ⟨found.score + m.score, found.conflicts || m.conflicts⟩) ⟨0, false⟩

/-- The variables of `pickByContext`. -/
structure Pick where
  best : Option Candidate := none
  bestScore : Nat := 0
  tie : Bool := false
  deriving DecidableEq, Repr

def Pick.bestStrict (p : Pick) : Bool :=
  p.best.any Candidate.strict

/-- A round of the loop of `pickByContext`. -/
def Pick.next (p : Pick) (c : Candidate) (s : Nat) : Pick :=
  if s > p.bestScore ∨ (s = p.bestScore ∧ s > 0 ∧ c.strict ∧ ¬ p.bestStrict) then ⟨some c, s, false⟩
  else if s = p.bestScore ∧ s > 0 ∧ c.strict = p.bestStrict then { p with tie := true }
  else p

/-- The candidate with the strictly best score, where strict matches win ties. -/
def pickByContext (text : Units) (cands : List Candidate) (quote : AnchorQuote) :
    Option Candidate :=
  if quote.saved .prefixSide = none ∧ quote.saved .suffixSide = none then none
  else
    let p := cands.foldl (fun p c => p.next c (contextMatch u text c quote).score)
      ({} : Pick)
    if p.tie then none else p.best

/-- A round of the loop of `pickNearestLine`. -/
def nearer (space : TextSpace) (line : Int) (best : Option (Candidate × Nat)) (c : Candidate) :
    Option (Candidate × Nat) :=
  match space.lineAt c.start with
  | none => best
  | some l =>
      if best.all (fun b => (l - line).natAbs < b.2) then some (c, (l - line).natAbs) else best

def pickNearestLine (space : TextSpace) (cands : List Candidate) (line : Int) :
    Option Candidate :=
  (cands.foldl (nearer space line) none).map Prod.fst

/-- The occurrences of a quote in one of the modes. -/
def findMode (space : TextSpace) (needle : Units) (mode : Mode) : List Candidate :=
  findAll (normalize u space.text mode) (normalizeNeedle u needle mode) (mode = .strict)

/-- The occurrences of a quote, strict and normalized together. -/
def findQuote (space : TextSpace) (needle : Units) : List Candidate :=
  let strict := findMode u space needle .strict
  let loose := (findMode u space needle .loose).filter (fun c =>
    ¬ strict.any (fun s => s.start < c.stop ∧ c.start < s.stop))
  (strict ++ loose).insertionSort (fun a b => a.start ≤ b.start)

def overlapsLines (space : TextSpace) (c : Candidate) (lineStart lineEnd : Int) : Bool :=
  match space.lineAt c.start, space.lineAt (max c.start (c.stop - 1)) with
  | some a, some b => a ≤ lineEnd ∧ lineStart ≤ b
  | _, _ => false

/-- The candidate of a part of a quote. -/
def pickPart (space : TextSpace) (quote : AnchorQuote) (lineHint : Option Int)
    (cands : List Candidate) : Option Candidate :=
  match cands with
  | [c] => some c
  | _ =>
      (pickByContext u space.text cands quote).orElse (fun _ =>
        (lineHint.bind (pickNearestLine space cands)).orElse (fun _ => cands.head?))

/-- The fallback when the full quote is gone: its first and its last characters. -/
def findPartial (space : TextSpace) (quote : AnchorQuote) (lineHint : Option Int) :
    Option Candidate :=
  let needle := normalizeNeedle u quote.exact .loose
  if needle.length ≤ partialChars then none
  else
    let hay := normalize u space.text .loose
    let head := pickPart u space quote lineHint (findAll hay (needle.take partialChars) false)
    let tail := pickPart u space quote lineHint
      (findAll hay (needle.drop (needle.length - partialChars)) false)
    match head, tail with
    | some h, some t =>
        if t.start ≥ h.stop ∧ t.stop - h.start ≤ space.text.length ∧
            t.start - h.stop ≤ quote.exact.length * 2 then some ⟨h.start, t.stop, false⟩
        else some h
    | some h, none => some h
    | none, t => t

/-! ### Resolution -/

/-- Whether a diff has the numbers of lines. -/
def diffHasLineNumbers (changes : List DiffChange) : Bool :=
  changes = [] || changes.any (fun c => c.oldLine.isSome || c.newLine.isSome)

/-- A resolution to a candidate, with its lines where the space has them. -/
def foundAt (space : TextSpace) (status : AnchorStatus) (method : AnchorMethod)
    (ambiguous : Bool) (c : Candidate) : AnchorResolution :=
  { status := status
    method := some method
    range := some (c.start, c.stop)
    lineStart := space.lineAt c.start
    lineEnd := space.lineAt (max c.start (c.stop - 1))
    ambiguous := ambiguous }

/-- The lines that can be trusted in the current version. -/
def trustedLines (input : AnchorInput) : Option RemappedRange :=
  match input.lineStart with
  | none => none
  | some lineStart =>
      if lineStart = 0 then none
      else
        let lineEnd := max lineStart (input.lineEnd.getD lineStart)
        if ¬ input.stale then some ⟨lineStart, lineEnd, false, false⟩
        else
          match input.changes with
          | none => none
          | some changes =>
              if diffHasLineNumbers changes then some (remapLineRange changes lineStart lineEnd)
              else none

/-- The candidates, and those whose saved context conflicts. -/
def candidatesOf (space : TextSpace) (quote : AnchorQuote) : List Candidate × List Candidate :=
  let all := findQuote u space quote.exact
  if quote.saved .prefixSide ≠ none ∨ quote.saved .suffixSide ≠ none then
    (all.filter (fun c => ¬ (contextMatch u space.text c quote).conflicts),
      all.filter (fun c => (contextMatch u space.text c quote).conflicts))
  else
    let strict := all.filter Candidate.strict
    (if strict = [] then all else strict, [])

/-- The candidate that the context singles out. -/
def pickedOf (space : TextSpace) (quote : AnchorQuote) (cands : List Candidate) :
    Option Candidate :=
  match cands with
  | [c] => some c
  | _ => pickByContext u space.text cands quote

/-- The second step: the lines. -/
def resolveLines (space : TextSpace) (ambiguous conflicting : List Candidate)
    (lines : RemappedRange) : Option AnchorResolution :=
  if lines.deleted then none
  else
    match pickNearestLine space ambiguous lines.lineStart with
    | some near => some (foundAt space .anchored .quote false near)
    | none =>
        match conflicting.find? (fun c => overlapsLines space c lines.lineStart lines.lineEnd) with
        | some confirmed => some (foundAt space .anchored .quote false confirmed)
        | none =>
            (space.lineRangeToOffsets.bind (fun f => f lines.lineStart lines.lineEnd)).map
              (fun offsets =>
                { status := if lines.touched then .moved else .anchored
                  method := some .lines
                  range := some offsets
                  lineStart := some lines.lineStart
                  lineEnd := some lines.lineEnd })

/-- The third step: the quote alone. -/
def resolveQuoteOnly (space : TextSpace) (input : AnchorInput) (quote : AnchorQuote)
    (ambiguous conflicting : List Candidate) (lines : Option RemappedRange) :
    Option AnchorResolution :=
  let stored := input.lineStart.map (fun line => (line : Int))
  let hint := (lines.map RemappedRange.lineStart).orElse (fun _ => stored)
  match ambiguous with
  | first :: _ =>
      let c := (stored.bind (pickNearestLine space ambiguous)).getD first
      some (foundAt space .anchored .quote true c)
  | [] =>
      match conflicting with
      | first :: _ =>
          if lines.any RemappedRange.deleted then some { status := .lost }
          else
            let c := (stored.bind (fun _ => hint.bind (pickNearestLine space conflicting))).getD first
            some (foundAt space .moved .quote false c)
      | [] =>
          (findPartial u space quote hint).map (foundAt space .moved .quotePartial false)

/-- The stored lines of a comment without a quote, when nothing could be verified. -/
def resolveStoredLines (space : TextSpace) (input : AnchorInput) (lines : Option RemappedRange) :
    Option AnchorResolution :=
  match input.lineStart with
  | none => none
  | some lineStart =>
      if input.stale ∧ lines = none ∧ 0 < lineStart then
        let lineEnd := max lineStart (input.lineEnd.getD lineStart)
        (space.lineRangeToOffsets.bind (fun f => f lineStart lineEnd)).map (fun offsets =>
          { status := .moved
            method := some .lines
            range := some offsets
            lineStart := some (lineStart : Int)
            lineEnd := some (lineEnd : Int) })
      else none

def resolveAnchor (space : TextSpace) (input : AnchorInput) : AnchorResolution :=
  let lines := trustedLines input
  match input.quote.filter (fun quote => trimUnits quote.exact ≠ []) with
  | some quote =>
      let (cands, conflicting) := candidatesOf u space quote
      match pickedOf u space quote cands with
      | some picked => foundAt space .anchored .quote false picked
      | none =>
          ((lines.bind (resolveLines space cands conflicting)).orElse (fun _ =>
            resolveQuoteOnly u space input quote cands conflicting lines)).getD
              { status := .lost }
  | none =>
      ((lines.bind (resolveLines space [] [])).orElse (fun _ =>
        resolveStoredLines space input lines)).getD { status := .lost }

/-! ### Spaces and capture -/

/-- The offsets at which the lines of a text start, after the first. -/
def lineStartsFrom : Nat → Units → List Nat
  | _, [] => []
  | i, c :: text =>
      if c = codeUnit '\n' then (i + 1) :: lineStartsFrom (i + 1) text
      else lineStartsFrom (i + 1) text

def lineStarts (text : Units) : List Nat :=
  0 :: lineStartsFrom 0 text

/-- The binary search of `offsetToLine`, of which there are at most `fuel` rounds. -/
def searchLine (starts : List Nat) (offset : Nat) : Nat → Nat → Nat → Nat
  | 0, lo, _ => lo
  | fuel + 1, lo, hi =>
      if lo < hi then
        let mid := (lo + hi + 1) / 2
        if (starts[mid]?).any (· ≤ offset) then searchLine starts offset fuel mid hi
        else searchLine starts offset fuel lo (mid - 1)
      else lo

/-- The space of a plain source text. -/
def sourceTextSpace (text : Units) : TextSpace :=
  let starts := lineStarts text
  let lineCount := starts.length
  { text := text
    lineRangeToOffsets := some (fun a b =>
      if a > lineCount then none
      else
        let s := max 1 a
        let e := min (lineCount : Int) (max s b)
        (starts[(s - 1).toNat]?).map (fun start =>
          (start, if e < lineCount then ((starts[e.toNat]?).getD 0) - 1 else text.length)))
    offsetToLine := some (fun offset =>
      some ((searchLine starts offset lineCount 0 (lineCount - 1) : Nat) + 1)) }

/-- The bounds of a selection without white space at its ends. -/
def trimSelection (text : Units) (start stop : Nat) : Nat × Nat :=
  let start := start + ((sliceUnits text start stop).takeWhile isSpace).length
  (start, stop - ((sliceUnits text start stop).reverse.takeWhile isSpace).length)

/-- A context that is not empty. -/
def contextOrNone (text : Units) : Option Units :=
  if text = [] then none else some text

/-- The quote of a selection of a text. -/
def captureQuote (text : Units) (start stop : Nat) : Option AnchorQuote :=
  let (start, stop) := trimSelection text start stop
  if start ≥ stop then none
  else
    some
      { exact := sliceUnits text start (min stop (start + quoteExactMax))
        prefixText := contextOrNone (sliceUnits text (start - quoteContextChars) start)
        suffixText := contextOrNone (sliceUnits text stop (stop + quoteContextChars)) }

/-- The resolution in a view whose lines are not the lines of the source. -/
def resolveAnchorInView (view source : TextSpace) (input : AnchorInput) : AnchorResolution :=
  let direct := (input.quote.filter (fun quote => trimUnits quote.exact ≠ [])).map
    (fun quote => resolveAnchor u view { quote := some quote, stale := input.stale })
  match direct.filter (fun r => (r.status = .anchored ∧ ¬ r.ambiguous) ∨ input.lineStart = none) with
  | some r => r
  | none =>
      let inSource := resolveAnchor u source input
      match inSource.range with
      | none => direct.getD inSource
      | some (start, stop) =>
          let carried := captureQuote source.text start stop
          match carried.map (fun quote => resolveAnchor u view { quote := some quote }) with
          | none => direct.getD { status := .lost }
          | some inView =>
              if inView.range = none then direct.getD { status := .lost }
              else
                { status := if inSource.status = .anchored ∧ inView.status = .anchored
                    then .anchored else .moved
                  method := inSource.method
                  range := inView.range
                  lineStart := inSource.lineStart
                  lineEnd := inSource.lineEnd }

end AgentFs

import AgentFs.Live.CommentAnchor

/-!
# Positions of presence

The positions of `live/src/lib/presence.ts`: a selection or a caret is sent as a quote of the
text with some text on both sides, and resolved again in the view of the receiver.
-/

namespace AgentFs

open RegExp

/-! ### Capture -/

/-- Longest quote that the server accepts. -/
def presenceExactMax : Nat := 256

/-- Characters quoted before a caret to place it. -/
def caretChars : Nat := 24

structure PresenceSelection where
  quote : AnchorQuote
  lineStart : Int
  lineEnd : Int
  fileVersion : Option Nat
  collapsed : Bool
  deriving DecidableEq, Repr

/-- `context`: the quote of `exact`, which is the text from `start` to `stop`. -/
def withContext (text : Units) (exact : Units) (start stop : Nat) : AnchorQuote :=
  { exact := exact
    prefixText := contextOrNone (sliceUnits text (start - quoteContextChars) start)
    suffixText := contextOrNone (sliceUnits text stop (stop + quoteContextChars)) }

/-- Quote for a selection, without the white space at its ends. -/
def selectionQuote (text : Units) (start stop : Nat) : Option AnchorQuote :=
  let (start, stop) := trimSelection text start stop
  if start ≥ stop then none
  else
    let stop := min stop (start + presenceExactMax)
    some (withContext text (sliceUnits text start stop) start stop)

/-- The loop of `caretQuote`, which reaches back over blank stretches. -/
def reachBack (text : Units) (offset : Nat) : Nat → Nat → Nat
  | 0, start => start
  | fuel + 1, start =>
      if 0 < start ∧ (sliceUnits text start offset).all isSpace ∧
          offset - start < presenceExactMax then
        reachBack text offset fuel (max (offset - presenceExactMax) (start - caretChars))
      else start

/-- Quote for a caret: the text before it, so that the caret is the end of the quote. -/
def caretQuote (text : Units) (offset : Nat) : Option AnchorQuote :=
  let start := reachBack text offset offset (offset - caretChars)
  let exact := sliceUnits text start offset
  if exact.all isSpace then none else some (withContext text exact start offset)

/-- Presence selection for a range of a space, or a caret where it is empty or blank. -/
def selectionAt (space : TextSpace) (start stop : Nat) (fileVersion : Option Nat) :
    Option PresenceSelection :=
  let (start, stop) := if start > stop then (stop, start) else (start, stop)
  let lineStart := (space.lineAt start).getD 0
  match (if start = stop then none else selectionQuote space.text start stop) with
  | some quote =>
      let lineEnd := (space.lineAt (max start (stop - 1))).getD lineStart
      some ⟨quote, lineStart, max lineStart lineEnd, fileVersion, false⟩
  | none =>
      (caretQuote space.text stop).map (fun quote =>
        ⟨quote, lineStart, max lineStart lineStart, fileVersion, true⟩)

/-! ### Resolution -/

variable (u : AnchorUnicode)

def isStale (fileVersion currentVersion : Option Nat) : Bool :=
  fileVersion ≠ none ∧ currentVersion ≠ none ∧ fileVersion ≠ currentVersion

/-- Only a match of the quote counts. -/
def resolveQuote (view : TextSpace) (source : Option TextSpace) (input : AnchorInput) :
    Option (Nat × Nat) :=
  let r :=
    match source with
    | some source => resolveAnchorInView u view source input
    | none => resolveAnchor u view input
  if r.status = .lost ∨ r.method = some .lines then none else r.range

/-- A line, unless it is zero. -/
def lineOrNone (line : Int) : Option Nat :=
  if line = 0 then none else some line.toNat

/-- What is resolved of a selection. -/
def selectionInput (sel : PresenceSelection) (currentVersion : Option Nat) : AnchorInput :=
  { quote := some sel.quote
    lineStart := lineOrNone sel.lineStart
    lineEnd := lineOrNone sel.lineEnd
    stale := isStale sel.fileVersion currentVersion }

structure ResolvedSelection where
  start : Nat
  stop : Nat
  /-- Where the caret is drawn. -/
  caret : Nat
  deriving DecidableEq, Repr

/-- The end of a selection that is longer than its quote. -/
def selectionEnd (view : TextSpace) (source : Option TextSpace) (sel : PresenceSelection)
    (stale : Bool) (start quoteEnd : Nat) : Nat :=
  match view.lineAt (max start (quoteEnd - 1)) with
  | none => quoteEnd
  | some endLine =>
      if sel.quote.exact.length ≥ presenceExactMax ∧ ¬ stale ∧ source.isNone ∧
          sel.lineEnd > endLine then
        match view.lineRangeToOffsets.bind (fun f => f sel.lineEnd sel.lineEnd) with
        | some last => max quoteEnd last.2
        | none => quoteEnd
      else quoteEnd

/-- The range of a remote selection, or none when its text is gone. -/
def resolveSelection (view : TextSpace) (source : Option TextSpace) (sel : PresenceSelection)
    (currentVersion : Option Nat) : Option ResolvedSelection :=
  (resolveQuote u view source (selectionInput sel currentVersion)).map (fun hit =>
    let (start, quoteEnd) := hit
    if sel.collapsed then
      -- The resolver drops the white space at the end of the quote.
      let run := ((view.text.drop quoteEnd).takeWhile isSpace).length
      let lead := ((sel.quote.suffixText.getD []).takeWhile isSpace).length
      let caret := quoteEnd + (run - lead)
      ⟨caret, caret, caret⟩
    else
      let stop := selectionEnd view source sel (isStale sel.fileVersion currentVersion) start quoteEnd
      ⟨start, stop, stop⟩)

/-! ### Carets -/

/-- The occurrence from which the quote of a caret was captured, without the white space at its
ends. -/
def capturedRange (offset : Nat) (quote : AnchorQuote) : Nat × Nat :=
  (offset - quote.exact.length + (quote.exact.takeWhile isSpace).length,
    offset - (quote.exact.reverse.takeWhile isSpace).length)

theorem getD_contextOrNone (text : Units) :
  (contextOrNone text).getD [] = text
  := by
  rw [contextOrNone]
  split
  case isTrue hempty => exact hempty.symm
  case isFalse => rfl

theorem caretQuote_spec {text : Units} {offset : Nat} {quote : AnchorQuote}
    (h : caretQuote text offset = some quote) :
  ∃ start < offset, quote.exact = sliceUnits text start offset ∧
    quote.suffixText.getD [] = sliceUnits text offset (offset + quoteContextChars)
  := by
  rw [caretQuote] at h
  generalize reachBack text offset offset (offset - caretChars) = start at h
  by_cases hblank : (sliceUnits text start offset).all isSpace = true
  · rw [if_pos hblank] at h
    cases h
  · rw [if_neg hblank] at h
    obtain rfl := Option.some.inj h
    refine ⟨start, ?_, rfl, ?_⟩
    · by_contra hle
      rw [sliceUnits, Nat.sub_eq_zero_of_le (Nat.le_of_not_lt hle)] at hblank
      exact hblank rfl
    · exact getD_contextOrNone _

theorem caretQuote_of_selectionAt {space : TextSpace} {start stop : Nat}
    {fileVersion : Option Nat} {sel : PresenceSelection}
    (h : selectionAt space start stop fileVersion = some sel) (hcollapsed : sel.collapsed = true) :
  caretQuote space.text (max start stop) = some sel.quote
  := by
  have hstop : (if start > stop then (stop, start) else (start, stop)).2 = max start stop := by
    split
    case isTrue hlt => exact (max_eq_left_of_lt hlt).symm
    case isFalse hle => exact (max_eq_right (Nat.le_of_not_lt hle)).symm
  rw [selectionAt] at h
  simp only at h
  rw [hstop] at h
  split at h
  case h_1 =>
    obtain rfl := Option.some.inj h
    cases hcollapsed
  case h_2 =>
    obtain ⟨quote, hquote, rfl⟩ := Option.map_eq_some_iff.mp h
    exact hquote

/-- The white space from the end of the captured occurrence on: what the quote ends with, and what
comes after the caret. -/
theorem blankRun_capturedRange {text : Units} {start offset : Nat} (hstart : start < offset)
    (hoffset : offset ≤ text.length) {quote : AnchorQuote}
    (hexact : quote.exact = sliceUnits text start offset) :
  (capturedRange offset quote).2 +
    ((text.drop (capturedRange offset quote).2).takeWhile isSpace).length =
    offset + ((text.drop offset).takeWhile isSpace).length
  := by
  have hlength : quote.exact.length = offset - start := by
    rw [hexact, sliceUnits, List.length_take, List.length_drop]
    omega
  rw [capturedRange]
  generalize hblanks : quote.exact.reverse.takeWhile isSpace = blanks
  have hall : ∀ c ∈ blanks.reverse, isSpace c = true := by
    intro c hc
    rw [← hblanks] at hc
    exact List.mem_takeWhile_imp (List.mem_reverse.mp hc)
  obtain ⟨front, hfront⟩ := List.takeWhile_prefix (l := quote.exact.reverse) isSpace
  rw [hblanks] at hfront
  have hsplit : quote.exact = front.reverse ++ blanks.reverse := by
    rw [← List.reverse_append, hfront, List.reverse_reverse]
  have hle : blanks.length ≤ offset - start := by
    rw [← hlength, hsplit, List.length_append, List.length_reverse, List.length_reverse]
    exact Nat.le_add_left _ _
  have htext : text.drop start = quote.exact ++ text.drop offset := by
    rw [hexact, sliceUnits]
    conv_lhs => rw [← List.take_append_drop (offset - start) (text.drop start)]
    rw [List.drop_drop, Nat.add_sub_cancel' hstart.le]
  have hdrop : text.drop (offset - blanks.length) = blanks.reverse ++ text.drop offset := by
    have hfrontlen : front.reverse.length = offset - start - blanks.length := by
      have hlen := congrArg List.length hsplit
      rw [List.length_append, @List.length_reverse _ blanks] at hlen
      omega
    have hgo := congrArg (List.drop front.reverse.length) htext
    rw [hsplit, List.append_assoc, List.drop_left, List.drop_drop, hfrontlen] at hgo
    rw [← hgo]
    congr 1
    omega
  dsimp only
  rw [hdrop, List.takeWhile_append_of_pos hall, List.length_append, List.length_reverse]
  omega

/-- A caret whose quote is resolved to the occurrence it was captured from is drawn where it was,
exactly when the white space after it is no longer than the text that is saved there. -/
theorem caret_resolveSelection_iff {space : TextSpace} {source : Option TextSpace}
    {start stop : Nat} {fileVersion currentVersion : Option Nat} {sel : PresenceSelection}
    (hstop : max start stop ≤ space.text.length)
    (hsel : selectionAt space start stop fileVersion = some sel)
    (hcollapsed : sel.collapsed = true)
    (hhit : resolveQuote u space source (selectionInput sel currentVersion) =
      some (capturedRange (max start stop) sel.quote)) :
  ((resolveSelection u space source sel currentVersion).map ResolvedSelection.caret =
      some (max start stop)) ↔
    ((space.text.drop (max start stop)).takeWhile isSpace).length ≤ quoteContextChars
  := by
  obtain ⟨from', hfrom, hexact, hsuffix⟩ :=
    caretQuote_spec (caretQuote_of_selectionAt hsel hcollapsed)
  have hrun := blankRun_capturedRange hfrom hstop hexact
  have hlead : ((sel.quote.suffixText.getD []).takeWhile isSpace).length =
      min quoteContextChars ((space.text.drop (max start stop)).takeWhile isSpace).length := by
    rw [hsuffix, sliceUnits, Nat.add_sub_cancel_left, ← List.take_takeWhile, List.length_take]
  have hle : (capturedRange (max start stop) sel.quote).2 ≤ max start stop := Nat.sub_le _ _
  rw [resolveSelection, hhit]
  simp only [Option.map_some, hcollapsed, if_true, Option.some.injEq, hlead]
  generalize ((space.text.drop (max start stop)).takeWhile isSpace).length = after at hrun ⊢
  omega

/-- The Unicode functions on ASCII. -/
def asciiAnchor : AnchorUnicode where
  lowerUnit c := [if 0x41 ≤ c ∧ c ≤ 0x5A then c + 32 else c]
  toLowerCase := List.map (fun c => if 0x41 ≤ c ∧ c ≤ 0x5A then c + 32 else c)
  lettersAndNumbers := List.filter (fun c =>
    (0x30 ≤ c ∧ c ≤ 0x39) ∨ (0x41 ≤ c ∧ c ≤ 0x5A) ∨ (0x61 ≤ c ∧ c ≤ 0x7A))

/-- A caret in front of more white space than is saved. -/
def sampleBlanks : Units :=
  codeUnit 'a' :: List.replicate 40 (codeUnit ' ') ++ [codeUnit 'b']

/-- The quote is found where it was captured, and the caret is drawn eight characters further. -/
theorem caret_moves :
  ∃ sel, selectionAt (sourceTextSpace sampleBlanks) 1 1 none = some sel ∧ sel.collapsed = true ∧
    resolveQuote asciiAnchor (sourceTextSpace sampleBlanks) none (selectionInput sel none) =
      some (capturedRange 1 sel.quote) ∧
    (resolveSelection asciiAnchor (sourceTextSpace sampleBlanks) none sel none).map
      ResolvedSelection.caret = some 9
  := by
  refine ⟨⟨⟨[codeUnit 'a'], none, some (List.replicate 32 (codeUnit ' '))⟩, 1, 1, none, true⟩, ?_⟩
  decide +kernel

theorem caret_resolveSelection_sample :
  (resolveSelection asciiAnchor (sourceTextSpace (codeUnits "ab  cd")) none
    ⟨⟨codeUnits "ab ", none, some (codeUnits " cd")⟩, 1, 1, none, true⟩ none).map
      ResolvedSelection.caret = some 3
  := by
  apply (caret_resolveSelection_iff asciiAnchor (by decide : max 3 3 ≤ _)
    (by decide +kernel : selectionAt _ 3 3 none = _) rfl (by decide +kernel)).mpr
  decide

end AgentFs

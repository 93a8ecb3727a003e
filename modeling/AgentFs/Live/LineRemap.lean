import AgentFs.Lib.EditScript
import AgentFs.Paths

/-!
# Line remapping

The `diff` op of `ops/diff.ts` numbers the lines of the hunks of `structuredPatch`, and
`remapLineRange` of `comment-anchor.ts` maps a range of old lines through them.  The patch comes
from a script that edits the lines of the old text.
-/

namespace AgentFs

open EditScript

inductive DiffKind where
  | add
  | remove
  | context
  deriving DecidableEq, Repr

/-- `DiffChange`. -/
structure DiffChange where
  type : DiffKind
  content : Text
  oldLine : Option Nat := none
  newLine : Option Nat := none
  deriving DecidableEq, Repr

/-- A hunk of a patch: the numbers of its first lines, and its lines with their prefixes. -/
structure Hunk where
  oldStart : Nat
  newStart : Nat
  lines : List Text
  deriving DecidableEq, Repr

/-! ### The diff -/

/-- The changes of the lines of a hunk. -/
def hunkChanges : List Text → (oldLine newLine : Nat) → List DiffChange
  | [], _, _ => []
  | ('\\' :: content) :: lines, o, n =>
      { type := .context, content := content } :: hunkChanges lines o n
  | ('+' :: content) :: lines, o, n =>
      { type := .add, content := content, newLine := some n } :: hunkChanges lines o (n + 1)
  | ('-' :: content) :: lines, o, n =>
      { type := .remove, content := content, oldLine := some o } :: hunkChanges lines (o + 1) n
  | line :: lines, o, n =>
      { type := .context, content := line.drop 1, oldLine := some o, newLine := some n } ::
        hunkChanges lines (o + 1) (n + 1)

/-- The changes that `diff` makes of a patch. -/
def diffChanges (hunks : List Hunk) : List DiffChange :=
  hunks.flatMap (fun hunk => hunkChanges hunk.lines hunk.oldStart hunk.newStart)

/-! ### The remapping -/

structure RemappedLine where
  line : Int
  removed : Bool
  deriving DecidableEq, Repr

/-- The loop of `remapLine`. -/
def remapLoop (line : Nat) : List DiffChange → (delta : Int) → (lastNew : Nat) → RemappedLine
  | [], delta, _ => ⟨line + delta, false⟩
  | c :: changes, delta, lastNew =>
      let lastNew := max lastNew (c.newLine.getD 0)
      match c.oldLine with
      | none => remapLoop line changes delta lastNew
      | some old =>
          if old < line then
            match c.type, c.newLine with
            | .context, some new => remapLoop line changes (new - old) lastNew
            | _, _ => remapLoop line changes delta lastNew
          else if old = line then
            match c.type, c.newLine with
            | .context, some new => ⟨new, false⟩
            | _, _ =>
                match changes.findSome? DiffChange.newLine with
                | some new => ⟨new, true⟩
                | none => ⟨max 1 (lastNew + 1), true⟩
          else ⟨line + delta, false⟩

def remapLine (changes : List DiffChange) (line : Nat) : RemappedLine :=
  remapLoop line changes 0 0

structure RemappedRange where
  lineStart : Int
  lineEnd : Int
  touched : Bool
  deleted : Bool
  deriving DecidableEq, Repr

/-- The place where an old line is removed. -/
def removedAt (changes : List DiffChange) (line : Nat) : Option Nat :=
  changes.findIdx? (fun c => c.type = .remove ∧ c.oldLine = some line)

/-- What is no context belongs to a block of changes. -/
def inBlock (c : DiffChange) : Bool :=
  c.type ≠ .context

/-- The changes of a block: from the place of the first line to that of the last, and on both sides
as far as no context comes. -/
def blockChanges (changes : List DiffChange) (first last : Nat) : List DiffChange :=
  let lo := first - ((changes.take first).rtakeWhile inBlock).length
  let hi := last + ((changes.drop (last + 1)).takeWhile inBlock).length
  (changes.take (hi + 1)).drop lo

/-- The new line that a change adds. -/
def addedLine (c : DiffChange) : Option Nat :=
  if c.type = .add then c.newLine else none

/-- The new lines of a block. -/
def addedLines (changes : List DiffChange) (lineStart lineEnd : Nat) : List Nat :=
  match removedAt changes lineStart, removedAt changes lineEnd with
  | some first, some last => (blockChanges changes first last).filterMap addedLine
  | _, _ => []

/-- The change removes a line of the range. -/
def removedWithin (lineStart lineEnd : Nat) (c : DiffChange) : Bool :=
  c.type = .remove ∧ c.oldLine.any (fun old => lineStart ≤ old ∧ old ≤ lineEnd)

def remapLineRange (changes : List DiffChange) (lineStart lineEnd : Nat) : RemappedRange :=
  let a := remapLine changes lineStart
  let b := remapLine changes lineEnd
  let removedInRange := (changes.filter (removedWithin lineStart lineEnd)).length
  let start := a.line
  let stop := max start (if b.removed then b.line - 1 else b.line)
  let insertedInside := changes.any (fun c => c.type = .add ∧
    c.newLine.any (fun new => start < new ∧ new ≤ stop))
  if (removedInRange : Int) = (lineEnd : Int) - lineStart + 1 then
    match (addedLines changes lineStart lineEnd).min?, (addedLines changes lineStart lineEnd).max? with
    | some least, some greatest => ⟨least, greatest, true, false⟩
    | _, _ => ⟨start, start, true, true⟩
  else ⟨start, max start stop, 0 < removedInRange ∨ insertedInside, false⟩

/-! ### Patches -/

/-- The lines of a text, each with its newline. -/
def linesOf : Text → List Text
  | [] => []
  | c :: text =>
      if c = '\n' then ['\n'] :: linesOf text
      else
        match linesOf text with
        | [] => [[c]]
        | line :: lines => (c :: line) :: lines

def endsWithNewline (line : Text) : Bool :=
  line.getLast? = some '\n'

/-- A line of a patch, after its prefix: without the newline, or with a marker that it has none. -/
def patchLines (start : Char) (line : Text) : List Text :=
  if endsWithNewline line then [start :: line.dropLast]
  else [start :: line, "\\ No newline at end of file".toList]

/-- The lines of a patch for a step of the script. -/
def renderEdit : Edit Text → List Text
  | .keep line => patchLines ' ' line
  | .remove line => patchLines '-' line
  | .add line => patchLines '+' line

/-- The hunks cover the script from the given lines on, up to gaps of unchanged lines; next to a
gap, they have 4 lines of context. -/
inductive Covers : (oldLine newLine : Nat) → List (Edit Text) → List Hunk → Prop
  | gap {o n : Nat} {gap : List (Edit Text)} (h : ∀ e ∈ gap, e.isKeep = true) : Covers o n gap []
  | hunk {o n : Nat} {gap body rest : List (Edit Text)} {hunks : List Hunk}
      (hgap : ∀ e ∈ gap, e.isKeep = true)
      (hlead : gap ≠ [] → (body.takeWhile Edit.isKeep).length = 4)
      (htrail : rest ≠ [] → (body.rtakeWhile Edit.isKeep).length = 4)
      (hrest : Covers (o + gap.length + olds body) (n + gap.length + news body) rest hunks) :
      Covers o n (gap ++ (body ++ rest))
        (⟨o + gap.length, n + gap.length, body.flatMap renderEdit⟩ :: hunks)

/-- The hunks are those of a line diff of two texts with 4 lines of context. -/
structure IsPatch (text1 text2 : Text) (script : List (Edit Text)) (hunks : List Hunk) : Prop where
  old : oldItems script = linesOf text1
  new : newItems script = linesOf text2
  covers : Covers 1 1 script hunks

/-! ### What the remapping has to do -/

/-- All lines of the range are removed, and the block they are in adds none. -/
def RangeDeleted (script : List (Edit Text)) (lineStart lineEnd : Nat) : Prop :=
  ∃ before inner line after, RemovedRange script lineStart lineEnd before inner line after ∧
    ∀ e ∈ changeBlock before inner line after, e.isAdd = false

/-- All lines of the range are removed and the block they are in adds lines, but a marker that a
line has no newline stands between the range and each of them. -/
def MarkerSplits (script : List (Edit Text)) (lineStart lineEnd : Nat) : Prop :=
  ∃ before inner line after, RemovedRange script lineStart lineEnd before inner line after ∧
    (∃ e ∈ changeBlock before inner line after, e.isAdd = true) ∧
    ∀ e ∈ reachedBlock endsWithNewline before inner line after, e.isAdd = false

/-! ### The numbered script -/

/-- The change of a step of the script. -/
def editChange (e : Edit Text) (o n : Nat) : DiffChange :=
  let content := if endsWithNewline e.item then e.item.dropLast else e.item
  match e with
  | .keep _ => { type := .context, content := content, oldLine := some o, newLine := some n }
  | .remove _ => { type := .remove, content := content, oldLine := some o }
  | .add _ => { type := .add, content := content, newLine := some n }

/-- The marker after a line without a newline. -/
def noNewlineMarker : DiffChange where
  type := .context
  content := " No newline at end of file".toList

def editChanges (e : Edit Text) (o n : Nat) : List DiffChange :=
  editChange e o n :: if endsWithNewline e.item then [] else [noNewlineMarker]

/-- The changes of a script whose steps are marked as shown in a hunk or not. -/
def numbered : (o n : Nat) → List (Edit Text × Bool) → List DiffChange
  | _, _, [] => []
  | o, n, (e, shown) :: marked =>
      (if shown then editChanges e o n else []) ++ numbered (o + olds [e]) (n + news [e]) marked

/-- Whether the last step is kept; `prev` is said of the one before the first. -/
def lastKept : Bool → List (Edit Text × Bool) → Bool
  | prev, [] => prev
  | _, x :: marked => lastKept x.1.isKeep marked

/-- A step that is not shown keeps a line, and so does the step before it. -/
def Framed : Bool → List (Edit Text × Bool) → Prop
  | _, [] => True
  | prev, x :: marked =>
      (x.2 = false → x.1.isKeep = true ∧ prev = true) ∧ Framed x.1.isKeep marked

theorem framed_append {prev : Bool} {marked rest : List (Edit Text × Bool)} :
  Framed prev (marked ++ rest) ↔ Framed prev marked ∧ Framed (lastKept prev marked) rest
  := by
  induction marked generalizing prev with
  | nil => simp [Framed, lastKept]
  | cons x marked ih => simp [Framed, lastKept, ih, and_assoc]

theorem lastKept_concat {prev : Bool} {marked : List (Edit Text × Bool)} {x : Edit Text × Bool} :
  lastKept prev (marked ++ [x]) = x.1.isKeep
  := by
  induction marked generalizing prev with
  | nil => rfl
  | cons y marked ih => exact ih

theorem numbered_append {o n : Nat} {marked rest : List (Edit Text × Bool)} :
  numbered o n (marked ++ rest) = numbered o n marked ++
    numbered (o + olds (marked.map (·.1))) (n + news (marked.map (·.1))) rest
  := by
  induction marked generalizing o n with
  | nil => rfl
  | cons x marked ih =>
      rw [List.cons_append, numbered, numbered, ih, List.append_assoc, List.map_cons,
        olds_cons x.1 (marked.map _), news_cons x.1 (marked.map _), Nat.add_assoc, Nat.add_assoc]

/-- The lines of a step are numbered as the step is. -/
theorem hunkChanges_renderEdit (e : Edit Text) (lines : List Text) (o n : Nat) :
  hunkChanges (renderEdit e ++ lines) o n =
    editChanges e o n ++ hunkChanges lines (o + olds [e]) (n + news [e])
  := by
  unfold editChanges editChange
  cases e with
  | _ line =>
      unfold renderEdit patchLines Edit.item
      dsimp only
      split
      · rfl
      · rfl

/-- All steps are shown. -/
def allShown (script : List (Edit Text)) : List (Edit Text × Bool) :=
  script.map (fun e => (e, true))

/-- No step is shown. -/
def allHidden (script : List (Edit Text)) : List (Edit Text × Bool) :=
  script.map (fun e => (e, false))

theorem hunkChanges_eq (body : List (Edit Text)) (o n : Nat) :
  hunkChanges (body.flatMap renderEdit) o n = numbered o n (allShown body)
  := by
  induction body generalizing o n with
  | nil => rfl
  | cons e body ih =>
      rw [List.flatMap_cons, hunkChanges_renderEdit, ih]
      rfl

theorem numbered_allHidden (gap : List (Edit Text)) (o n : Nat) :
  numbered o n (allHidden gap) = []
  := by
  induction gap generalizing o n with
  | nil => rfl
  | cons e gap ih => exact ih _ _

theorem framed_allShown (prev : Bool) (body : List (Edit Text)) :
  Framed prev (allShown body)
  := by
  induction body generalizing prev with
  | nil => trivial
  | cons e body ih => exact ⟨nofun, ih _⟩

theorem framed_allHidden {gap : List (Edit Text)} (h : ∀ e ∈ gap, e.isKeep = true) :
  Framed true (allHidden gap) ∧ lastKept true (allHidden gap) = true
  := by
  induction gap with
  | nil => exact ⟨trivial, rfl⟩
  | cons e gap ih =>
      have hkeep := h e List.mem_cons_self
      have hgap := ih (fun x hx => h x (List.mem_cons_of_mem e hx))
      refine ⟨⟨fun _ => ⟨hkeep, rfl⟩, ?_⟩, ?_⟩
      · rw [hkeep]
        exact hgap.1
      · change lastKept e.isKeep (allHidden gap) = true
        rw [hkeep]
        exact hgap.2

theorem lastKept_allShown {body : List (Edit Text)} {prev : Bool}
    (h : (body.rtakeWhile Edit.isKeep).length = 4) :
  lastKept prev (allShown body) = true
  := by
  induction body using List.reverseRecOn with
  | nil => cases h
  | append_singleton body e _ =>
      unfold allShown
      rw [List.map_append, List.map_singleton, lastKept_concat]
      by_contra hkeep
      rw [List.rtakeWhile_concat_neg _ _ _ hkeep] at h
      cases h

/-- Some of the steps of a covered script are shown by the hunks, in order. -/
theorem Covers.exists_marked {o n : Nat} {script : List (Edit Text)} {hunks : List Hunk}
    (h : Covers o n script hunks) :
  ∃ marked, marked.map (·.1) = script ∧ diffChanges hunks = numbered o n marked ∧ Framed true marked
  := by
  induction h with
  | @gap o n gap hgap =>
      refine ⟨allHidden gap, ?_, (numbered_allHidden gap o n).symm, (framed_allHidden hgap).1⟩
      unfold allHidden
      rw [List.map_map]
      exact List.map_id gap
  | @hunk o n gap body rest hunks hgap hlead htrail hrest ih =>
      obtain ⟨marked, hmarked, hchanges, hframed⟩ := ih
      have hhidden : (allHidden gap).map (·.1) = gap := by
        unfold allHidden
        rw [List.map_map]
        exact List.map_id gap
      have hshown : (allShown body).map (·.1) = body := by
        unfold allShown
        rw [List.map_map]
        exact List.map_id body
      have hgaplength : olds gap = gap.length ∧ news gap = gap.length := keptOnly_lengths hgap
      refine ⟨allHidden gap ++ (allShown body ++ marked), ?_, ?_, ?_⟩
      · rw [List.map_append, List.map_append, hhidden, hshown, hmarked]
      · rw [numbered_append, numbered_append, numbered_allHidden, hhidden, hshown, hgaplength.1,
          hgaplength.2, ← hchanges, ← hunkChanges_eq]
        rfl
      · rw [framed_append, framed_append]
        refine ⟨(framed_allHidden hgap).1, framed_allShown _ body, ?_⟩
        cases marked with
        | nil => trivial
        | cons x marked =>
            rw [lastKept_allShown (htrail (by rw [← hmarked]; exact nofun))]
            exact hframed

/-! ### A line -/

section

variable {line o n : Nat} {delta : Int} {lastNew : Nat}

theorem remapLoop_marker (shown : Bool) (changes : List DiffChange) :
  remapLoop line ((if shown then [] else [noNewlineMarker]) ++ changes) delta lastNew =
    remapLoop line changes delta lastNew
  := by
  cases shown with
  | true => rfl
  | false =>
      change remapLoop line changes delta (max lastNew 0) = _
      rw [Nat.max_zero]

variable (line o n delta lastNew) in
/-- A step before the line, or one that adds a line, sets at most the offset. -/
theorem remapLoop_editChanges (changes : List DiffChange) {e : Edit Text}
    (h : e.isAdd = true ∨ o < line) :
  ∃ lastNew', remapLoop line (editChanges e o n ++ changes) delta lastNew =
    remapLoop line changes (if e.isKeep then (n : Int) - o else delta) lastNew'
  := by
  unfold editChanges
  rw [List.cons_append]
  cases e with
  | add a => exact ⟨_, remapLoop_marker _ _⟩
  | keep a =>
      have hlt : o < line := h.resolve_left nofun
      refine ⟨max lastNew n, ?_⟩
      rw [remapLoop]
      dsimp only [editChange]
      rw [if_pos hlt]
      exact remapLoop_marker _ _
  | remove a =>
      have hlt : o < line := h.resolve_left nofun
      refine ⟨max lastNew 0, ?_⟩
      rw [remapLoop]
      dsimp only [editChange]
      rw [if_pos hlt]
      exact remapLoop_marker _ _

theorem offset_keep {e : Edit Text} (h : e.isKeep = true) :
  ((n + news [e] : Nat) : Int) - ((o + olds [e] : Nat) : Int) = (n : Int) - o
  := by
  cases e with
  | keep a =>
      change ((n + 1 : Nat) : Int) - ((o + 1 : Nat) : Int) = _
      omega
  | _ => cases h

variable (line o n delta lastNew) in
/-- The steps before a line bring the loop to it.  After a step that is kept, shown or not, the
offset is that of the line numbers. -/
theorem remapLoop_skip {before rest : List (Edit Text × Bool)} {prev : Bool}
    (hframed : Framed prev (before ++ rest)) (hdelta : prev = true → delta = (n : Int) - o)
    (hline : o + olds (before.map (·.1)) ≤ line) :
  ∃ delta' lastNew', Framed (lastKept prev before) rest ∧
    (lastKept prev before = true → delta' = ((n + news (before.map (·.1)) : Nat) : Int) -
      ((o + olds (before.map (·.1)) : Nat) : Int)) ∧
    remapLoop line (numbered o n (before ++ rest)) delta lastNew =
      remapLoop line (numbered (o + olds (before.map (·.1))) (n + news (before.map (·.1))) rest)
        delta' lastNew'
  := by
  induction before generalizing o n prev delta lastNew with
  | nil => exact ⟨delta, lastNew, hframed, hdelta, rfl⟩
  | cons x before ih =>
      obtain ⟨e, shown⟩ := x
      obtain ⟨hhidden, hframed⟩ := hframed
      rw [List.map_cons, olds_cons] at hline
      have hstep : ∃ delta₁ lastNew₁,
          (e.isKeep = true → delta₁ = ((n + news [e] : Nat) : Int) - ((o + olds [e] : Nat) : Int)) ∧
          remapLoop line (numbered o n ((e, shown) :: before ++ rest)) delta lastNew =
            remapLoop line (numbered (o + olds [e]) (n + news [e]) (before ++ rest)) delta₁
              lastNew₁ := by
        cases shown with
        | false =>
            obtain ⟨hkeep, hprev⟩ := hhidden rfl
            refine ⟨delta, lastNew, ?_, rfl⟩
            intro _
            rw [hdelta hprev, offset_keep hkeep]
        | true =>
            have hbefore : e.isAdd = true ∨ o < line := by
              cases e with
              | add a => exact Or.inl rfl
              | _ =>
                  right
                  simp at hline
                  omega
            obtain ⟨lastNew₁, hloop⟩ := remapLoop_editChanges line o n delta lastNew
              (numbered (o + olds [e]) (n + news [e]) (before ++ rest)) hbefore
            refine ⟨_, lastNew₁, ?_, hloop⟩
            intro hkeep
            rw [if_pos hkeep, offset_keep hkeep]
      obtain ⟨delta₁, lastNew₁, hdelta₁, hloop₁⟩ := hstep
      obtain ⟨delta₂, lastNew₂, hframed₂, hdelta₂, hloop₂⟩ := ih _ _ _ lastNew₁ hframed hdelta₁
        (by rw [Nat.add_assoc]; exact hline)
      rw [List.map_cons, olds_cons e, news_cons e, ← Nat.add_assoc, ← Nat.add_assoc]
      exact ⟨delta₂, lastNew₂, hframed₂, hdelta₂, hloop₁.trans hloop₂⟩

/-- Past the line nothing changes it. -/
theorem remapLoop_past {marked : List (Edit Text × Bool)} (h : line < o) :
  remapLoop line (numbered o n marked) delta lastNew = ⟨line + delta, false⟩
  := by
  induction marked generalizing o n lastNew with
  | nil => rfl
  | cons x marked ih =>
      obtain ⟨e, shown⟩ := x
      cases shown with
      | false => exact ih (by omega)
      | true =>
          cases e with
          | add a =>
              change remapLoop line (editChanges (.add a) o n ++ numbered _ _ marked) delta lastNew = _
              obtain ⟨lastNew', hloop⟩ := remapLoop_editChanges line o n delta lastNew (e := .add a)
                (numbered (o + olds [.add a]) (n + news [.add a]) marked) (Or.inl rfl)
              rw [hloop]
              exact ih (by omega)
          | keep a =>
              change remapLoop line (editChange (.keep a) o n :: _) delta lastNew = _
              rw [remapLoop]
              dsimp only [editChange]
              rw [if_neg (by omega), if_neg (by omega)]
          | remove a =>
              change remapLoop line (editChange (.remove a) o n :: _) delta lastNew = _
              rw [remapLoop]
              dsimp only [editChange]
              rw [if_neg (by omega), if_neg (by omega)]

/-- The next line that is shown after a step that is not kept is the next line of the new text. -/
theorem findSome_numbered {marked : List (Edit Text × Bool)} (hframed : Framed false marked)
    (hnew : 0 < news (marked.map (·.1))) :
  (numbered o n marked).findSome? (·.newLine) = some n
  := by
  induction marked generalizing o with
  | nil => cases hnew
  | cons x marked ih =>
      obtain ⟨e, shown⟩ := x
      obtain ⟨hhidden, hframed⟩ := hframed
      cases shown with
      | false => cases (hhidden rfl).2
      | true =>
          cases e with
          | keep a => rfl
          | add a => rfl
          | remove a =>
              have hrest := ih (o := o + 1) hframed hnew
              unfold numbered editChanges
              cases endsWithNewline (Edit.remove a).item with
              | true => exact hrest
              | false => exact hrest

end

section

variable {marked : List (Edit Text × Bool)} {line : Nat}

/-- A line that survives is mapped to its number in the new text. -/
theorem remapLine_survives (hframed : Framed true marked) {new : Nat}
    (h : Survives (marked.map (·.1)) line new) :
  remapLine (numbered 1 1 marked) line = ⟨new, false⟩
  := by
  obtain ⟨before, a, after, hmarked, hline, hnew⟩ := h
  obtain ⟨mbefore, mrest, rfl, rfl, hrest⟩ := List.map_eq_append_iff.mp hmarked
  obtain ⟨⟨e, shown⟩, mafter, rfl, he, -⟩ := List.map_eq_cons_iff.mp hrest
  obtain rfl : e = .keep a := he
  obtain ⟨delta, lastNew, hframed', hdelta, hloop⟩ := remapLoop_skip line 1 1 0 0
    hframed (fun _ => rfl) (by omega)
  unfold remapLine
  rw [hloop]
  cases shown with
  | false =>
      have hkept := hdelta (hframed'.1 rfl).2
      have hpast : remapLoop line (numbered (1 + olds (mbefore.map (·.1)) + 1)
          (1 + news (mbefore.map (·.1)) + 1) mafter) delta lastNew = ⟨line + delta, false⟩ :=
        remapLoop_past (by omega)
      have hsum : (line : Int) + delta = new := by
        rw [hkept]
        omega
      rw [← hsum]
      exact hpast
  | true =>
      change remapLoop line (editChange (.keep a) _ _ :: _) delta lastNew = _
      rw [remapLoop]
      dsimp only [editChange]
      rw [if_neg (by omega), if_pos (by omega), hnew, Nat.add_comm 1]

/-- A line that does not survive is mapped to the next line of the new text, if there is one. -/
theorem remapLine_removed (hframed : Framed true marked) {before after : List (Edit Text)} {a : Text}
    (hmarked : marked.map (·.1) = before ++ .remove a :: after) (hline : line = olds before + 1) :
  (remapLine (numbered 1 1 marked) line).removed = true ∧
    (0 < news after → (remapLine (numbered 1 1 marked) line).line = news before + 1)
  := by
  obtain ⟨mbefore, mrest, rfl, rfl, hrest⟩ := List.map_eq_append_iff.mp hmarked
  obtain ⟨⟨e, shown⟩, mafter, rfl, he, hafter⟩ := List.map_eq_cons_iff.mp hrest
  obtain rfl : e = .remove a := he
  obtain ⟨delta, lastNew, hframed', -, hloop⟩ := remapLoop_skip line 1 1 0 0
    hframed (fun _ => rfl) (by omega)
  unfold remapLine
  rw [hloop]
  cases shown with
  | false => cases (hframed'.1 rfl).1
  | true =>
      change (remapLoop line (editChange (.remove a) _ _ :: _) delta lastNew).removed = true ∧
        (_ → (remapLoop line (editChange (.remove a) _ _ :: _) delta lastNew).line = _)
      rw [remapLoop]
      dsimp only [editChange]
      rw [if_neg (by omega), if_pos (by omega)]
      constructor
      · split <;> rfl
      · intro hnew
        rw [← hafter] at hnew
        have hnext : ((if endsWithNewline (Edit.remove a).item then [] else [noNewlineMarker]) ++
            numbered (1 + olds (mbefore.map (·.1)) + 1) (1 + news (mbefore.map (·.1)))
              mafter).findSome? (·.newLine) = some (1 + news (mbefore.map (·.1))) := by
          have hnumbered := findSome_numbered (o := 1 + olds (mbefore.map (·.1)) + 1)
            (n := 1 + news (mbefore.map (·.1))) hframed'.2 hnew
          cases endsWithNewline (Edit.remove a).item with
          | true => exact hnumbered
          | false => exact hnumbered
        split
        · rename_i found hfound
          have hfound' : some found = some (1 + news (mbefore.map (·.1))) := hfound.symm.trans hnext
          cases hfound'
          change ((1 + news (mbefore.map (·.1)) : Nat) : Int) = _
          omega
        · rename_i hfound
          cases hfound.symm.trans hnext

/-- The changes of removed lines are those of the script. -/
theorem length_filter_removedWithin {first last o n : Nat} {prev : Bool}
    (hframed : Framed prev marked) :
  ((numbered o n marked).filter (removedWithin first last)).length =
    removedIn first last o (marked.map (·.1))
  := by
  have hmarker : ∀ b : Bool, (if b then [] else [noNewlineMarker]).filter
      (removedWithin first last) = [] := by
    intro b
    cases b <;> rfl
  induction marked generalizing o n prev with
  | nil => rfl
  | cons x marked ih =>
      obtain ⟨e, shown⟩ := x
      obtain ⟨hhidden, hframed⟩ := hframed
      rw [numbered, List.filter_append, List.length_append, ih hframed]
      cases shown with
      | false =>
          cases e with
          | keep a => exact Nat.zero_add _
          | _ => cases (hhidden rfl).1
      | true =>
          rw [if_pos rfl, editChanges, List.filter_cons, hmarker]
          cases e with
          | keep a => exact Nat.zero_add _
          | add a => exact Nat.zero_add _
          | remove a =>
              rw [List.map_cons, removedIn]
              by_cases hrange : first ≤ o ∧ o ≤ last
              · rw [if_pos hrange, if_pos (by simpa [removedWithin, editChange] using hrange)]
                rfl
              · rw [if_neg hrange, if_neg (by simpa [removedWithin, editChange] using hrange)]
                rfl

/-- A line is mapped to a place that is not after that of a later line that survives. -/
theorem remapLine_le (hframed : Framed true marked) (hpos : 1 ≤ line) {later new : Nat}
    (hlater : line ≤ later) (h : Survives (marked.map (·.1)) later new) :
  (remapLine (numbered 1 1 marked) line).line ≤ new
  := by
  have hle : line ≤ olds (marked.map (·.1)) := by
    obtain ⟨before, a, after, hscript, hlater', -⟩ := h
    rw [hscript, olds_append, olds_keep]
    omega
  obtain ⟨before, e, after, hscript, he, hline⟩ := exists_old hpos hle
  obtain ⟨hnew, hafter⟩ := h.after_place hscript (by omega)
  cases e with
  | keep a =>
      rw [remapLine_survives hframed ⟨before, a, after, hscript, hline.symm, rfl⟩]
      exact Int.ofNat_le.mpr hnew
  | remove a =>
      rw [(remapLine_removed hframed hscript hline.symm).2 (hafter rfl)]
      exact_mod_cast hnew
  | add a => cases he

variable {lineStart lineEnd : Nat}

/-- The code sees when no line of the range survives. -/
theorem removedInRange_iff (hframed : Framed true marked) (hpos : 1 ≤ lineStart)
    (hle : lineStart ≤ lineEnd) (hlast : lineEnd ≤ olds (marked.map (·.1))) :
  (((numbered 1 1 marked).filter (removedWithin lineStart lineEnd)).length : Int) =
      (lineEnd : Int) - lineStart + 1 ↔
    ∀ i j, lineStart ≤ i → i ≤ lineEnd → ¬ Survives (marked.map (·.1)) i j
  := by
  rw [← removedIn_eq_iff hpos hle hlast, length_filter_removedWithin hframed]
  omega

/-- The ends of a range that survive are mapped to their numbers in the new text. -/
theorem remapLineRange_survives (hframed : Framed true marked) (hpos : 1 ≤ lineStart)
    (hle : lineStart ≤ lineEnd) (hlast : lineEnd ≤ olds (marked.map (·.1))) :
  (∀ new, Survives (marked.map (·.1)) lineStart new →
    (remapLineRange (numbered 1 1 marked) lineStart lineEnd).lineStart = new) ∧
  (∀ new, Survives (marked.map (·.1)) lineEnd new →
    (remapLineRange (numbered 1 1 marked) lineStart lineEnd).lineEnd = new)
  := by
  have hcount := removedInRange_iff hframed hpos hle hlast
  constructor
  · intro new hnew
    have hkept : ¬ _ := fun heq => hcount.mp heq lineStart new le_rfl hle hnew
    unfold remapLineRange
    dsimp only
    rw [if_neg hkept, remapLine_survives hframed hnew]
  · intro new hnew
    have hkept : ¬ _ := fun heq => hcount.mp heq lineEnd new hle le_rfl hnew
    have hstart := remapLine_le hframed hpos hle hnew
    unfold remapLineRange
    dsimp only
    rw [if_neg hkept, remapLine_survives hframed hnew]
    dsimp only
    rw [if_neg Bool.false_ne_true]
    omega

end

/-! ### A range that is removed -/

theorem blockChanges_eq (before inner after : List DiffChange) (c : DiffChange) :
  blockChanges (before ++ (inner ++ c :: after)) before.length (before.length + inner.length) =
    before.rtakeWhile inBlock ++ (inner ++ c :: after.takeWhile inBlock)
  := by
  obtain ⟨start, hstart⟩ := List.rtakeWhile_suffix inBlock before
  obtain ⟨stop, hstop⟩ := List.takeWhile_prefix inBlock (l := after)
  have htake : (before ++ (inner ++ c :: after)).take before.length = before := List.take_left
  have hdrop : (before ++ (inner ++ c :: after)).drop (before.length + inner.length + 1) = after := by
    rw [← List.append_assoc, ← List.length_append, ← List.drop_drop, List.drop_left]
    rfl
  have hlo : before.length - (before.rtakeWhile inBlock).length = start.length := by
    have hlength := congrArg List.length hstart
    rw [List.length_append] at hlength
    omega
  unfold blockChanges
  dsimp only
  rw [htake, hdrop, hlo]
  have hsplit : before ++ (inner ++ c :: after) =
      (start ++ (before.rtakeWhile inBlock ++ (inner ++ c :: after.takeWhile inBlock))) ++ stop := by
    rw [← List.append_assoc start, hstart, List.append_assoc, List.append_assoc, List.cons_append,
      hstop]
  have hhi : before.length + inner.length + (after.takeWhile inBlock).length + 1 =
      (start ++ (before.rtakeWhile inBlock ++ (inner ++ c :: after.takeWhile inBlock))).length := by
    rw [← List.append_assoc start, hstart, List.length_append, List.length_append, List.length_cons]
    omega
  rw [hsplit, hhi, List.take_left, List.drop_left]

theorem addedLine_editChange {e : Edit Text} {o n : Nat} :
  addedLine (editChange e o n) = none ↔ e.isAdd = false
  := by
  cases e with
  | add a => exact ⟨nofun, nofun⟩
  | _ => exact ⟨fun _ => rfl, fun _ => rfl⟩

theorem inBlock_editChange {e : Edit Text} {o n : Nat} :
  inBlock (editChange e o n) = true ↔ e.isKeep = false
  := by
  cases e with
  | keep a => exact ⟨nofun, nofun⟩
  | _ => exact ⟨fun _ => rfl, fun _ => rfl⟩

section

variable {marked : List (Edit Text × Bool)} {o n : Nat} {prev : Bool}

/-- Changes of lines before have smaller numbers. -/
theorem oldLine_lt {c : DiffChange} (hc : c ∈ numbered o n marked) {old : Nat}
    (hold : c.oldLine = some old) :
  old < o + olds (marked.map (·.1))
  := by
  induction marked generalizing o n with
  | nil => cases hc
  | cons x marked ih =>
      obtain ⟨e, shown⟩ := x
      change old < o + olds (e :: marked.map (·.1))
      rw [olds_cons]
      rcases List.mem_append.mp hc with hhead | htail
      · cases shown with
        | false => cases hhead
        | true =>
            rcases List.mem_cons.mp hhead with rfl | hmarker
            · cases e with
              | add a => cases hold
              | keep a =>
                  have hsame : o = old := Option.some.inj hold
                  rw [olds_keep]
                  omega
              | remove a =>
                  have hsame : o = old := Option.some.inj hold
                  rw [olds_remove]
                  omega
            · cases hnewline : endsWithNewline e.item with
              | true =>
                  rw [hnewline] at hmarker
                  cases hmarker
              | false =>
                  rw [hnewline] at hmarker
                  cases List.mem_singleton.mp hmarker
                  cases hold
      · have hlt := ih htail
        omega

/-- The code finds the removal of a line. -/
theorem removedAt_numbered {before after : List (Edit Text × Bool)} {a : Text} {line : Nat}
    (hline : olds (before.map (·.1)) + 1 = line) :
  removedAt (numbered 1 1 (before ++ (.remove a, true) :: after)) line =
    some (numbered 1 1 before).length
  := by
  unfold removedAt
  rw [numbered_append, List.findIdx?_append]
  have hnone : (numbered 1 1 before).findIdx?
      (fun c => c.type = .remove ∧ c.oldLine = some line) = none := by
    rw [List.findIdx?_eq_none_iff]
    intro c hc
    rw [decide_eq_false_iff_not]
    rintro ⟨-, hold⟩
    have hlt := oldLine_lt hc hold
    omega
  rw [hnone, Option.none_or]
  change Option.map _ (List.findIdx? _ (editChange (.remove a) _ _ :: _)) = _
  rw [List.findIdx?_cons, if_pos (by simp [editChange]; omega)]
  simp

/-- The changes add no line when the steps do not. -/
theorem forall_addedLine (hframed : Framed prev marked) :
  (∀ c ∈ numbered o n marked, addedLine c = none) ↔ ∀ e ∈ marked.map (·.1), e.isAdd = false
  := by
  have hmarker : ∀ b : Bool, ∀ c ∈ (if b then [] else [noNewlineMarker]), addedLine c = none := by
    intro b
    cases b with
    | true => exact nofun
    | false =>
        intro c hc
        rw [if_neg Bool.false_ne_true, List.mem_singleton] at hc
        rw [hc]
        rfl
  induction marked generalizing o n prev with
  | nil => exact ⟨fun _ => nofun, fun _ => nofun⟩
  | cons x marked ih =>
      obtain ⟨e, shown⟩ := x
      obtain ⟨hhidden, hframed⟩ := hframed
      rw [List.map_cons, List.forall_mem_cons, numbered, List.forall_mem_append]
      refine and_congr ?_ (ih hframed)
      cases shown with
      | false =>
          cases e with
          | keep a => exact ⟨fun _ => rfl, fun _ => nofun⟩
          | _ => cases (hhidden rfl).1
      | true =>
          rw [if_pos rfl, editChanges, List.forall_mem_cons, and_iff_left (hmarker _)]
          exact addedLine_editChange

/-- The last step is numbered last. -/
theorem numbered_concat (e : Edit Text) (shown : Bool) :
  numbered o n (marked ++ [(e, shown)]) = numbered o n marked ++
    if shown then editChanges e (o + olds (marked.map (·.1))) (n + news (marked.map (·.1))) else []
  := by
  rw [numbered_append, numbered, numbered, List.append_nil]

theorem rtakeWhile_editChanges {changes : List DiffChange} {e : Edit Text} :
  (changes ++ editChanges e o n).rtakeWhile inBlock =
    if e.isKeep = false ∧ endsWithNewline e.item = true
    then changes.rtakeWhile inBlock ++ [editChange e o n] else []
  := by
  unfold editChanges
  cases hnewline : endsWithNewline e.item with
  | false =>
      rw [if_neg Bool.false_ne_true, if_neg (fun h => Bool.false_ne_true h.2), List.append_cons]
      exact List.rtakeWhile_concat_neg _ _ _ Bool.false_ne_true
  | true =>
      rw [if_pos rfl]
      simp only [and_true]
      split
      · rename_i hkeep
        exact List.rtakeWhile_concat_pos _ _ _ (inBlock_editChange.mpr hkeep)
      · rename_i hkeep
        exact List.rtakeWhile_concat_neg _ _ _ (fun h => hkeep (inBlock_editChange.mp h))

/-- After a line that is kept, shown or not, no block goes on. -/
theorem rtakeWhile_lastKept (hframed : Framed true marked) (hkept : lastKept true marked = true) :
  (numbered o n marked).rtakeWhile inBlock = []
  := by
  induction marked using List.reverseRecOn with
  | nil => rfl
  | append_singleton marked x ih =>
      obtain ⟨e, shown⟩ := x
      obtain ⟨hmarked, hlast, -⟩ := framed_append.mp hframed
      rw [lastKept_concat] at hkept
      rw [numbered_concat]
      cases shown with
      | false =>
          rw [if_neg Bool.false_ne_true, List.append_nil]
          exact ih hmarked (hlast rfl).2
      | true =>
          rw [if_pos rfl, rtakeWhile_editChanges, if_neg]
          rintro ⟨hkeep, -⟩
          exact Bool.false_ne_true (hkeep.symm.trans hkept)

/-- Before a range the code goes back over the changed lines, up to a marker. -/
theorem forall_addedLine_before (hframed : Framed true marked) :
  (∀ c ∈ (numbered o n marked).rtakeWhile inBlock, addedLine c = none) ↔
    ∀ e ∈ (marked.map (·.1)).rtakeWhile (fun e => ¬ e.isKeep ∧ endsWithNewline e.item),
      e.isAdd = false
  := by
  induction marked using List.reverseRecOn with
  | nil => exact ⟨fun _ => nofun, fun _ => nofun⟩
  | append_singleton marked x ih =>
      obtain ⟨e, shown⟩ := x
      obtain ⟨hmarked, hlast, -⟩ := framed_append.mp hframed
      rw [numbered_concat, List.map_append, List.map_singleton]
      cases shown with
      | false =>
          obtain ⟨hkeep, hkept⟩ := hlast rfl
          have hkeep : e.isKeep = true := hkeep
          rw [if_neg Bool.false_ne_true, List.append_nil, rtakeWhile_lastKept hmarked hkept,
            List.rtakeWhile_concat_neg _ _ _ (by simp [hkeep])]
          exact ⟨fun _ => nofun, fun _ => nofun⟩
      | true =>
          rw [if_pos rfl, rtakeWhile_editChanges]
          by_cases hboth : e.isKeep = false ∧ endsWithNewline e.item = true
          · rw [if_pos hboth, List.rtakeWhile_concat_pos _ _ _ (by simpa using hboth),
              List.forall_mem_append, List.forall_mem_append]
            refine and_congr (ih hmarked) ?_
            rw [List.forall_mem_singleton, List.forall_mem_singleton]
            exact addedLine_editChange
          · rw [if_neg hboth, List.rtakeWhile_concat_neg _ _ _ (by simpa using hboth)]
            exact ⟨fun _ => nofun, fun _ => nofun⟩

/-- After a range the code goes on over the changed lines, up to a marker. -/
theorem forall_addedLine_after (hframed : Framed false marked) :
  (∀ c ∈ (numbered o n marked).takeWhile inBlock, addedLine c = none) ↔
    ∀ e ∈ reach endsWithNewline (marked.map (·.1)), e.isAdd = false
  := by
  induction marked generalizing o n with
  | nil => exact ⟨fun _ => nofun, fun _ => nofun⟩
  | cons x marked ih =>
      obtain ⟨e, shown⟩ := x
      obtain ⟨hhidden, hframed⟩ := hframed
      cases shown with
      | false => cases (hhidden rfl).2
      | true =>
          rw [numbered, if_pos rfl, editChanges, List.cons_append, List.map_cons, reach]
          cases hkeep : e.isKeep with
          | true =>
              rw [if_pos rfl, List.takeWhile_cons_of_neg]
              · exact ⟨fun _ => nofun, fun _ => nofun⟩
              · rw [inBlock_editChange, hkeep]
                exact nofun
          | false =>
              rw [if_neg Bool.false_ne_true,
                List.takeWhile_cons_of_pos (inBlock_editChange.mpr hkeep), List.forall_mem_cons,
                List.forall_mem_cons, addedLine_editChange]
              refine and_congr Iff.rfl ?_
              cases endsWithNewline e.item with
              | false => exact ⟨fun _ => nofun, fun _ => nofun⟩
              | true => exact ih (hkeep ▸ hframed)

end

/-- A range with no line kept is reported deleted when the code finds no added line. -/
theorem deleted_iff_addedLines {changes : List DiffChange} {lineStart lineEnd : Nat}
    (hcount : ((changes.filter (removedWithin lineStart lineEnd)).length : Int) =
      (lineEnd : Int) - lineStart + 1) :
  (remapLineRange changes lineStart lineEnd).deleted = true ↔
    addedLines changes lineStart lineEnd = []
  := by
  unfold remapLineRange
  dsimp only
  rw [if_pos hcount]
  cases hadded : addedLines changes lineStart lineEnd with
  | nil => exact ⟨fun _ => rfl, fun _ => rfl⟩
  | cons least lines =>
      rw [List.min?_cons', List.max?_cons']
      exact ⟨nofun, nofun⟩

/-- The changes that the code looks through for added lines. -/
theorem addedLines_eq_nil_iff {before inner after : List (Edit Text × Bool)} {a : Text}
    {lineStart lineEnd : Nat} (hfirst : olds (before.map (·.1)) + 1 = lineStart)
    (hlast : olds (before.map (·.1)) + olds (inner.map (·.1)) + 1 = lineEnd)
    (hframed : Framed true (before ++ (inner ++ (.remove a, true) :: after)))
    (hhead : ∀ e ∈ (inner.map (·.1)).head?, e.isAdd = false)
    (hremoved : ∀ e ∈ inner.map (·.1), e.isKeep = false) :
  addedLines (numbered 1 1 (before ++ (inner ++ (.remove a, true) :: after))) lineStart lineEnd = [] ↔
    ∀ e ∈ reachedBlock endsWithNewline (before.map (·.1)) (inner.map (·.1)) a (after.map (·.1)),
      e.isAdd = false
  := by
  obtain ⟨hbefore, hrest⟩ := framed_append.mp hframed
  obtain ⟨hinner, hafter⟩ := framed_append.mp hrest
  have hstop : removedAt (numbered 1 1 (before ++ (inner ++ (.remove a, true) :: after))) lineEnd =
      some (numbered 1 1 (before ++ inner)).length := by
    rw [← List.append_assoc]
    apply removedAt_numbered
    rw [List.map_append, olds_append]
    exact hlast
  have hstart : removedAt (numbered 1 1 (before ++ (inner ++ (.remove a, true) :: after)))
      lineStart = some (numbered 1 1 before).length := by
    cases inner with
    | nil => exact removedAt_numbered hfirst
    | cons x inner =>
        obtain ⟨e, shown⟩ := x
        have hkeep := hremoved e List.mem_cons_self
        have hadd := hhead e rfl
        cases e with
        | keep b => cases hkeep
        | add b => cases hadd
        | remove b =>
            cases shown with
            | false => cases (hinner.1 rfl).1
            | true => exact removedAt_numbered hfirst
  unfold addedLines
  rw [hstart, hstop]
  dsimp only
  rw [numbered_append, numbered_append, numbered_append, List.length_append, numbered, if_pos rfl,
    editChanges, List.cons_append, blockChanges_eq, List.filterMap_eq_nil_iff, reachedBlock, reach,
    if_neg (show ¬ (Edit.remove a).isKeep = true from nofun)]
  rw [List.forall_mem_append, List.forall_mem_append, List.forall_mem_append,
    List.forall_mem_append, List.forall_mem_cons, List.forall_mem_cons]
  refine and_congr (forall_addedLine_before hbefore) (and_congr (forall_addedLine hinner)
    (and_congr addedLine_editChange ?_))
  change (∀ c ∈ ((if endsWithNewline a then [] else [noNewlineMarker]) ++ _).takeWhile inBlock, _) ↔
    ∀ e ∈ (if endsWithNewline a then _ else _), _
  cases endsWithNewline a with
  | false => exact ⟨fun _ => nofun, fun _ => nofun⟩
  | true => exact forall_addedLine_after hafter.2

/-- A removed range is reported deleted when the part of its block that is reached without crossing
a marker adds no line. -/
theorem remapLineRange_deleted {marked : List (Edit Text × Bool)} {lineStart lineEnd : Nat}
    {before inner after : List (Edit Text)} {a : Text} (hframed : Framed true marked)
    (hcount : (((numbered 1 1 marked).filter (removedWithin lineStart lineEnd)).length : Int) =
      (lineEnd : Int) - lineStart + 1)
    (hrange : RemovedRange (marked.map (·.1)) lineStart lineEnd before inner a after) :
  (remapLineRange (numbered 1 1 marked) lineStart lineEnd).deleted = true ↔
    ∀ e ∈ reachedBlock endsWithNewline before inner a after, e.isAdd = false
  := by
  obtain ⟨mbefore, mrest, rfl, rfl, hrest⟩ := List.map_eq_append_iff.mp hrange.eq
  obtain ⟨minner, mtail, rfl, rfl, htail⟩ := List.map_eq_append_iff.mp hrest
  obtain ⟨⟨e, shown⟩, mafter, rfl, he, rfl⟩ := List.map_eq_cons_iff.mp htail
  obtain rfl : e = .remove a := he
  obtain ⟨-, -, hlast⟩ := framed_append.mp hframed |>.imp_right framed_append.mp
  cases shown with
  | false => cases (hlast.1 rfl).1
  | true =>
      rw [deleted_iff_addedLines hcount]
      exact addedLines_eq_nil_iff hrange.first hrange.last hframed hrange.head hrange.removed

/-- Through the changes of a patch the ends of a range are mapped to their numbers in the new text
when they survive, and the range is reported deleted as it should be, if and only if it is not the
case that it is removed and a marker stands between it and each line that its block adds. -/
theorem remapLineRange_iff (structuredPatch : Text → Text → List Hunk) {text1 text2 : Text}
    {script : List (Edit Text)} (hpatch : IsPatch text1 text2 script (structuredPatch text1 text2))
    {lineStart lineEnd : Nat} (hpos : 1 ≤ lineStart) (hle : lineStart ≤ lineEnd)
    (hlast : lineEnd ≤ (linesOf text1).length) :
  (∀ new, Survives script lineStart new →
    (remapLineRange (diffChanges (structuredPatch text1 text2)) lineStart lineEnd).lineStart = new) ∧
  (∀ new, Survives script lineEnd new →
    (remapLineRange (diffChanges (structuredPatch text1 text2)) lineStart lineEnd).lineEnd = new) ∧
  (((remapLineRange (diffChanges (structuredPatch text1 text2)) lineStart lineEnd).deleted = true ↔
      RangeDeleted script lineStart lineEnd) ↔
    ¬ MarkerSplits script lineStart lineEnd)
  := by
  obtain ⟨marked, rfl, hchanges, hframed⟩ := hpatch.covers.exists_marked
  rw [← hpatch.old] at hlast
  rw [hchanges]
  obtain ⟨hstart, hend⟩ := remapLineRange_survives hframed hpos hle hlast
  refine ⟨hstart, hend, ?_⟩
  have hcount := removedInRange_iff hframed hpos hle hlast
  by_cases hnone : ∀ i j, lineStart ≤ i → i ≤ lineEnd → ¬ Survives (marked.map (·.1)) i j
  · obtain ⟨before, inner, a, after, hrange⟩ := exists_removedRange hpos hle hlast hnone
    rw [remapLineRange_deleted hframed (hcount.mpr hnone) hrange]
    have hdeleted : RangeDeleted (marked.map (·.1)) lineStart lineEnd ↔
        ∀ e ∈ changeBlock before inner a after, e.isAdd = false := by
      constructor
      · rintro ⟨before', inner', a', after', hrange', hblock⟩
        obtain ⟨rfl, rfl, rfl, rfl⟩ := hrange.unique hrange'
        exact hblock
      · exact fun hblock => ⟨before, inner, a, after, hrange, hblock⟩
    have hsplits : MarkerSplits (marked.map (·.1)) lineStart lineEnd ↔
        (∃ e ∈ changeBlock before inner a after, e.isAdd = true) ∧
          ∀ e ∈ reachedBlock endsWithNewline before inner a after, e.isAdd = false := by
      constructor
      · rintro ⟨before', inner', a', after', hrange', hblock⟩
        obtain ⟨rfl, rfl, rfl, rfl⟩ := hrange.unique hrange'
        exact hblock
      · exact fun hblock => ⟨before, inner, a, after, hrange, hblock⟩
    have hadds : (∃ e ∈ changeBlock before inner a after, e.isAdd = true) ↔
        ¬ ∀ e ∈ changeBlock before inner a after, e.isAdd = false := by
      push Not
      simp
    rw [hdeleted, hsplits, hadds]
    constructor
    · rintro hiff ⟨hblock, hreached⟩
      exact hblock (hiff.mp hreached)
    · intro hsplit
      constructor
      · intro hreached
        by_contra hblock
        exact hsplit ⟨hblock, hreached⟩
      · intro hblock e he
        exact hblock e (reachedBlock_subset he)
  · have hkept : (remapLineRange (numbered 1 1 marked) lineStart lineEnd).deleted = false := by
      unfold remapLineRange
      dsimp only
      rw [if_neg (fun heq => hnone (hcount.mp heq))]
    have hrange : ∀ before inner a after,
        ¬ RemovedRange (marked.map (·.1)) lineStart lineEnd before inner a after := by
      intro before inner a after hrange
      exact hnone (fun i j hi hj => hrange.not_survives hi hj)
    rw [hkept]
    constructor
    · rintro - ⟨before, inner, a, after, h, -⟩
      exact hrange before inner a after h
    · intro _
      constructor
      · exact nofun
      · rintro ⟨before, inner, a, after, h, -⟩
        exact absurd h (hrange before inner a after)

/-- The patch of a text whose second line is removed. -/
def samplePatch : List Hunk :=
  [⟨1, 1, [" a".toList, "-b".toList]⟩]

def sampleScript : List (Edit Text) :=
  [.keep "a\n".toList, .remove "b\n".toList]

theorem isPatch_samplePatch :
  IsPatch "a\nb\n".toList "a\n".toList sampleScript samplePatch
  where
  old := by decide
  new := by decide
  covers := @Covers.hunk 1 1 [] sampleScript [] [] nofun (fun h => absurd rfl h)
    (fun h => absurd rfl h) (.gap nofun)

/-- The removed line is reported deleted, as it is. -/
theorem remapLineRange_samplePatch :
  (remapLineRange (diffChanges samplePatch) 2 2).deleted = true ∧ RangeDeleted sampleScript 2 2
  := by
  obtain ⟨-, -, hdeleted⟩ := remapLineRange_iff (fun _ _ => samplePatch) isPatch_samplePatch
    (show 1 ≤ 2 by decide) (show 2 ≤ 2 by decide) (by decide)
  have hrange : RemovedRange sampleScript 2 2 [.keep "a\n".toList] [] "b\n".toList [] :=
    ⟨rfl, rfl, rfl, nofun, nofun⟩
  have hsplits : ¬ MarkerSplits sampleScript 2 2 := by
    rintro ⟨before, inner, a, after, h, ⟨e, he, hadd⟩, -⟩
    obtain ⟨rfl, rfl, rfl, rfl⟩ := hrange.unique h
    cases List.mem_singleton.mp he
    cases hadd
  have hrun : (remapLineRange (diffChanges samplePatch) 2 2).deleted = true := by
    decide +kernel
  exact ⟨hrun, (hdeleted.mpr hsplits).mp hrun⟩

/-- The patch of a text whose only line is rewritten, and has no newline before and after. -/
def rewrittenPatch : List Hunk :=
  [⟨1, 1, ["-a".toList, "\\ No newline at end of file".toList, "+b".toList,
    "\\ No newline at end of file".toList]⟩]

/-- The only line of a text is rewritten in place, and reported deleted. -/
theorem rewritten_line_deleted :
  IsPatch ['a'] ['b'] [.remove ['a'], .add ['b']] rewrittenPatch ∧
    (remapLineRange (diffChanges rewrittenPatch) 1 1).deleted = true ∧
    ¬ RangeDeleted [.remove ['a'], .add ['b']] 1 1
  := by
  have hrange : RemovedRange [.remove ['a'], .add ['b']] 1 1 [] [] ['a'] [.add ['b']] :=
    ⟨rfl, rfl, rfl, nofun, nofun⟩
  refine ⟨⟨rfl, rfl, ?_⟩, by decide +kernel, ?_⟩
  · exact @Covers.hunk 1 1 [] [.remove ['a'], .add ['b']] [] [] nofun (fun h => absurd rfl h)
      (fun h => absurd rfl h) (.gap nofun)
  · rintro ⟨before, inner, a, after, h, hblock⟩
    obtain ⟨rfl, rfl, rfl, rfl⟩ := hrange.unique h
    exact absurd (hblock (.add ['b']) (by decide)) nofun

end AgentFs

import Mathlib.Data.List.Basic

/-!
# Paths and storage keys

The path conventions of `ops/paths.ts` and the storage key of a file.  Text is a list
of characters; a stored path starts with `/` and has no trailing `/`, a directory prefix
starts and ends with `/`, a storage key has no leading `/`.
-/

namespace AgentFs

/-- Text, as the list of its characters. -/
abbrev Text := List Char

instance instLawfulBEqText : LawfulBEq Text := inferInstance

instance instLawfulBEqTextPair : LawfulBEq (Text × Text) := inferInstance

/-- The contents of a file. -/
abbrev Bytes := List UInt8

/-- Ensure that a file path starts with `/` and has no trailing `/`. -/
def normalizePath (path : Text) : Text :=
  let p := if path.head? = some '/' then path else '/' :: path
  if p.length > 1 ∧ p.getLast? = some '/' then p.dropLast else p

/-- Ensure that a directory prefix starts with `/` and ends with `/`. -/
def normalizePrefix (path : Text) : Text :=
  let p := if path.head? = some '/' then path else '/' :: path
  if p.getLast? = some '/' then p else p ++ ['/']

/-- A normalized prefix starts with `/`. -/
theorem head?_normalizePrefix (path : Text) :
  (normalizePrefix path).head? = some '/'
  := by
  unfold normalizePrefix
  cases path with
  | nil => rfl
  | cons c path =>
      by_cases hc : c = '/'
      · rw [hc]
        simp only [List.head?_cons, if_true]
        split
        · rfl
        · rfl
      · have hhead : ¬ (c :: path).head? = some '/' := by simpa using hc
        rw [if_neg hhead]
        dsimp only
        split
        · rfl
        · rfl

/-- Strip one leading `/`. -/
def stripLeadingSlash (path : Text) : Text :=
  if path.head? = some '/' then path.tail else path

/-- The storage key of a file: `<orgId>/drives/<driveId>/<path>`. -/
def getS3Key (orgId driveId path : Text) : Text :=
  orgId ++ "/drives/".toList ++ driveId ++ ['/'] ++ stripLeadingSlash path

/-- The segments of a key or path, split on either separator. -/
def segments (key : Text) : List Text :=
  key.splitOnP (fun c => c = '/' ∨ c = '\\')

/-- A key has no NUL and no segment `.` or `..`. -/
def KeyInsideDrive (key : Text) : Prop :=
  '\x00' ∉ key ∧ ∀ s ∈ segments key, s ≠ ['.'] ∧ s ≠ ['.', '.']

instance (key : Text) : Decidable (KeyInsideDrive key) :=
  inferInstanceAs (Decidable (_ ∧ _))

/-- A normalized path starts with `/`. -/
theorem head?_normalizePath (path : Text) :
  (normalizePath path).head? = some '/'
  := by
  have hslash : (if path.head? = some '/' then path else '/' :: path).head? = some '/' := by
    split
    · assumption
    · rfl
  unfold normalizePath
  generalize (if path.head? = some '/' then path else '/' :: path) = p at hslash
  obtain ⟨rest, rfl⟩ : ∃ rest, p = '/' :: rest := by
    cases p with
    | nil => simp at hslash
    | cons c rest =>
        use rest
        simpa using hslash
  dsimp only
  split
  · rename_i h
    cases rest with
    | nil => simp at h
    | cons d rest => rfl
  · rfl

/-- Paths that start with `/` have different storage keys in one drive. -/
theorem getS3Key_injective {orgId driveId p q : Text}
    (hp : p.head? = some '/') (hq : q.head? = some '/')
    (h : getS3Key orgId driveId p = getS3Key orgId driveId q) :
  p = q
  := by
  unfold getS3Key stripLeadingSlash at h
  rw [if_pos hp, if_pos hq] at h
  have htail := List.append_cancel_left h
  cases p with
  | nil => simp at hp
  | cons c p =>
      cases q with
      | nil => simp at hq
      | cons d q =>
          simp only [List.head?_cons, Option.some.injEq] at hp hq
          simp only [List.tail_cons] at htail
          rw [hp, hq, htail]

end AgentFs

import Mathlib.Data.Char
import Mathlib.Data.List.Lex
import Mathlib.Data.List.Sort
import AgentFs.Paths
import AgentFs.Lib.Sql
import AgentFs.Share.Links

/-!
# Active shares

The condition for an active share is written three times: in `getShareState`, in the UPDATE of
`consumeShareView` and in the filter of `ops/share-list.ts`.  The latter two are conditions of
SQL over columns that may be NULL.  They agree.
-/

namespace AgentFs

/-! ### The UPDATE of `consumeShareView` -/

/-- The WHERE clause of the UPDATE that counts a view. -/
def viewGuard (hash : Text) (now : Nat) (share : ShareRow) : Sql.Truth :=
  Sql.all
    [Sql.eq (some share.tokenHash) (some hash),
      Sql.isNull share.revokedAt,
      Sql.lt (some (seconds now)) (some share.expiresAt),
      (Sql.isNull share.maxViews).or (Sql.lt (some share.views) share.maxViews)]

/-! ### `share-list` -/

/-- Which links are listed: those of the active drive, or the caller's own in `driveIds`, the
drives of the org that they are a member of. -/
inductive ShareListScope where
  | drive (isShareAdmin : Bool) (path : Option Text)
  | mine (driveIds : List Text)
  deriving DecidableEq, Repr

/-- Folders above `path`, nearest first, ending with the drive root. -/
def coveringFolders (path : Text) : List Text :=
  let parts := (path.splitOn '/').filter (· ≠ [])
  ((List.range (parts.length - 1)).reverse.map (fun i =>
    '/' :: ['/'].intercalate (parts.take (i + 1)))) ++ if path ≠ ['/'] then [['/']] else []

/-- The conditions on what a caller may see. -/
def scopeFilters (ctx : OpContext) (scope : ShareListScope) (share : ShareRow) : List Sql.Truth :=
  match scope with
  | .mine driveIds =>
      [Sql.eq (some share.orgId) (some ctx.orgId), Sql.eq (some share.createdBy) (some ctx.userId),
        Sql.isIn (some share.driveId) driveIds]
  | .drive isShareAdmin path =>
      Sql.eq (some share.driveId) (some ctx.driveId) ::
        (if isShareAdmin then [] else [Sql.eq (some share.createdBy) (some ctx.userId)]) ++
        match path with
        | none => []
        | some path =>
            [(Sql.eq (some share.path) (some path)).or
              ((Sql.eq (some share.kind) (some .site)).and
                (Sql.isIn (some share.path) (coveringFolders path)))]

/-- The same conditions as those of `getShareState` for an active share, in SQL. -/
def activeFilters (now : Nat) (share : ShareRow) : List Sql.Truth :=
  [Sql.isNull share.revokedAt,
    Sql.lt (some (seconds now)) (some share.expiresAt),
    (Sql.isNull share.maxViews).or (Sql.lt (some share.views) share.maxViews)]

structure ShareListParams where
  scope : ShareListScope
  includeInactive : Bool
  limit : Nat
  offset : Nat
  deriving DecidableEq, Repr

def shareListWhere (ctx : OpContext) (params : ShareListParams) (now : Nat) (share : ShareRow) :
    Sql.Truth :=
  Sql.all (scopeFilters ctx params.scope share ++
    if params.includeInactive then [] else activeFilters now share)

/-- The latest first, and of those of one second the one with the greater id. -/
def ListedBefore (share other : ShareRow) : Prop :=
  other.createdAt < share.createdAt ∨ (share.createdAt = other.createdAt ∧ other.id ≤ share.id)

instance (share other : ShareRow) : Decidable (ListedBefore share other) :=
  inferInstanceAs (Decidable (_ ∨ _))

structure ShareListResult where
  shares : List (ShareRow × ShareState)
  total : Nat
  deriving DecidableEq, Repr

/-- List share links, each with its status. -/
def shareList (ctx : OpContext) (params : ShareListParams) (now : Nat) (rows : List ShareRow) :
    ShareListResult :=
  let selected := rows.filter (fun share => Sql.Selects (shareListWhere ctx params now share))
  { shares := ((((selected.insertionSort ListedBefore).drop params.offset).take params.limit).map
      (fun share => (share, getShareState share now)))
    total := selected.length }

/-! ### One notion -/

theorem getShareState_eq_active_iff (share : ShareRow) (now : Nat) :
  getShareState share now = .active ↔ share.revokedAt = none ∧ now < share.expiresAt * 1000 ∧
    ∀ maxViews ∈ share.maxViews, share.views < maxViews
  := by
  unfold getShareState
  split_ifs with hrevoked hexpired hexhausted
  · simp [hrevoked]
  · simp [hexpired]
  · obtain ⟨maxViews, hmem, hle⟩ := hexhausted
    refine iff_of_false (fun h => nomatch h) (fun ⟨_, _, hviews⟩ => ?_)
    exact absurd (hviews maxViews hmem) (Nat.not_lt.mpr hle)
  · refine iff_of_true rfl ⟨not_not.mp hrevoked, Nat.not_le.mp hexpired, ?_⟩
    intro maxViews hmem
    exact Nat.not_le.mp (fun hle => hexhausted ⟨maxViews, hmem, hle⟩)

theorem selects_views_iff (share : ShareRow) :
  Sql.Selects ((Sql.isNull share.maxViews).or (Sql.lt (some share.views) share.maxViews)) ↔
    ∀ maxViews ∈ share.maxViews, share.views < maxViews
  := by
  rw [Sql.selects_or, Sql.selects_isNull, Sql.selects_lt]
  cases share.maxViews <;> simp

theorem selects_activeFilters_iff (share : ShareRow) (now : Nat) :
  Sql.Selects (Sql.all (activeFilters now share)) ↔ getShareState share now = .active
  := by
  rw [getShareState_eq_active_iff, ← seconds_lt_iff, ← selects_views_iff]
  simp [activeFilters]

/-- The guard is the one that `consumeShareView` counts by. -/
theorem selects_viewGuard_iff (hash : Text) (share : ShareRow) (now : Nat) :
  Sql.Selects (viewGuard hash now share) ↔ share.CanCount hash now
  := by
  unfold ShareRow.CanCount
  rw [← selects_views_iff]
  simp [viewGuard]

theorem canCount_iff (hash : Text) (share : ShareRow) (now : Nat) :
  share.CanCount hash now ↔ share.tokenHash = hash ∧ getShareState share now = .active
  := by
  rw [getShareState_eq_active_iff, ← seconds_lt_iff]
  rfl

/-- The rows that `share-list` selects when only active shares are asked for. -/
theorem selects_shareListWhere_iff (ctx : OpContext) (scope : ShareListScope)
    (limit offset : Nat) (share : ShareRow) (now : Nat) :
  Sql.Selects (shareListWhere ctx ⟨scope, false, limit, offset⟩ now share) ↔
    Sql.Selects (Sql.all (scopeFilters ctx scope share)) ∧ getShareState share now = .active
  := by
  unfold shareListWhere
  rw [← selects_activeFilters_iff, Sql.selects_all, Sql.selects_all, Sql.selects_all]
  apply List.forall_mem_append

/-- A share is active for `getShareState` just when the guard of `consumeShareView` accepts it,
and just when the filter of `share-list` for active shares selects it, at every time. -/
theorem active_shares_agree (share : ShareRow) (now : Nat) :
  (getShareState share now = .active ↔ Sql.Selects (viewGuard share.tokenHash now share)) ∧
    (getShareState share now = .active ↔ share.CanCount share.tokenHash now) ∧
    (getShareState share now = .active ↔ Sql.Selects (Sql.all (activeFilters now share))) ∧
    ∀ (ctx : OpContext) (scope : ShareListScope) (limit offset : Nat),
      Sql.Selects (shareListWhere ctx ⟨scope, false, limit, offset⟩ now share) ↔
        Sql.Selects (Sql.all (scopeFilters ctx scope share)) ∧ getShareState share now = .active
  := by
  have hcount : getShareState share now = .active ↔ share.CanCount share.tokenHash now := by
    rw [canCount_iff, and_iff_right rfl]
  refine ⟨?_, hcount, (selects_activeFilters_iff share now).symm, ?_⟩
  · rw [selects_viewGuard_iff]
    exact hcount
  · intro ctx scope limit offset
    exact selects_shareListWhere_iff ctx scope limit offset share now

example : coveringFolders "/a/b/c.md".toList = ["/a/b".toList, "/a".toList, "/".toList] := by
  decide +kernel

end AgentFs

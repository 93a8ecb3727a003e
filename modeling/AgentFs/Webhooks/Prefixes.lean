import AgentFs.Lib.PrefixRange
import AgentFs.Webhooks.Subscriptions

/-!
# Path prefixes as string ranges

The SQL tests of `enqueueFileWebhooks` and of the `pathPrefix` of `comment-list`, which compare
a path with the bounds of two string ranges, and when they accept exactly the paths that start
with the prefix once they are normalized.
-/

namespace AgentFs

/-- The test of `comment-list`; the prefix `/` is no test. -/
def CommentInPrefix (pathPrefix path : Text) : Prop :=
  let pre := normalizePrefix pathPrefix
  let relativePrefix := pre.drop 1
  let prefixUpper := pre.dropLast ++ ['0']
  let relativePrefixUpper := relativePrefix.dropLast ++ ['0']
  pre ≠ ['/'] →
    (¬ path < pre ∧ path < prefixUpper) ∨
      (¬ path < relativePrefix ∧ path < relativePrefixUpper)

/-- The path with a slash in front. -/
def absolutePath (path : Text) : Text :=
  if path.head? = some '/' then path else '/' :: path

/-- The path is not the prefix itself, and, when it has a slash in front, it does not start with
the prefix without its first slash alone. -/
def PrefixExact (pathPrefix path : Text) : Prop :=
  absolutePath path ≠ pathPrefix ∧
    ¬ (path.head? = some '/' ∧ pathPrefix.drop 1 <+: path ∧ ¬ pathPrefix <+: path)

/-- A prefix that is not the root is between two slashes. -/
theorem exists_inner {pathPrefix : Text} (hroot : normalizePrefix pathPrefix ≠ ['/']) :
  ∃ inner, normalizePrefix pathPrefix = '/' :: (inner ++ ['/'])
  := by
  have hhead : ∃ rest, absolutePath pathPrefix = '/' :: rest := by
    unfold absolutePath
    split
    · rename_i h
      obtain ⟨rest, hrest⟩ := List.head?_eq_some_iff.mp h
      exact ⟨rest, hrest⟩
    · exact ⟨_, rfl⟩
  obtain ⟨rest, hrest⟩ := hhead
  have hstart : normalizePrefix pathPrefix =
      if (absolutePath pathPrefix).getLast? = some '/' then absolutePath pathPrefix
      else absolutePath pathPrefix ++ ['/'] := rfl
  rw [hrest] at hstart
  split at hstart
  · rename_i hlast
    rw [hstart] at hroot ⊢
    have hnil : rest ≠ [] := by
      rintro rfl
      exact hroot rfl
    rw [List.getLast?_cons_of_ne_nil hnil] at hlast
    obtain ⟨inner, hinner⟩ := List.getLast?_eq_some_iff.mp hlast
    exact ⟨inner, by rw [hinner]⟩
  · exact ⟨rest, hstart⟩

/-- What the SQL test of a prefix accepts. -/
theorem pathInPrefix_iff {inner path : Text} :
  PathInPrefix ('/' :: (inner ++ ['/'])) path ↔
    '/' :: (inner ++ ['/']) <+: path ∨ inner ++ ['/'] <+: path
  := by
  have hlength : ('/' :: (inner ++ ['/'])).length = inner.length + 2 := by simp
  have hupper : ('/' :: (inner ++ ['/'])).take (inner.length + 2 - 1) = '/' :: inner := by simp
  have hrelative : ('/' :: (inner ++ ['/'])).drop 1 = inner ++ ['/'] := rfl
  have hrelativeUpper : (inner ++ ['/']).take (inner.length + 2 - 2) = inner := by simp
  unfold PathInPrefix
  rw [hlength, hupper, hrelative, hrelativeUpper]
  have hfirst := List.range_iff_prefix Char.slash_covBy_zero ('/' :: inner) path
  have hsecond := List.range_iff_prefix Char.slash_covBy_zero inner path
  rw [List.cons_append] at hfirst
  rw [← hfirst, ← hsecond]

theorem commentInPrefix_iff {pathPrefix inner path : Text}
    (h : normalizePrefix pathPrefix = '/' :: (inner ++ ['/'])) :
  CommentInPrefix pathPrefix path ↔
    '/' :: (inner ++ ['/']) <+: path ∨ inner ++ ['/'] <+: path
  := by
  have hroot : '/' :: (inner ++ ['/']) ≠ ['/'] := by simp
  have hupper : ('/' :: (inner ++ ['/'])).dropLast = '/' :: inner := by
    rw [← List.cons_append, List.dropLast_concat]
  have hrelative : ('/' :: (inner ++ ['/'])).drop 1 = inner ++ ['/'] := rfl
  unfold CommentInPrefix
  dsimp only
  rw [h, hupper, hrelative, List.dropLast_concat, forall_prop_of_true hroot]
  have hfirst := List.range_iff_prefix Char.slash_covBy_zero ('/' :: inner) path
  have hsecond := List.range_iff_prefix Char.slash_covBy_zero inner path
  rw [List.cons_append] at hfirst
  rw [← hfirst, ← hsecond]

/-- A normalized path starts with a prefix when the path does, with a slash in front, and is not
the prefix itself, whose last slash is dropped. -/
theorem prefix_normalizePath_iff {inner path : Text} :
  '/' :: (inner ++ ['/']) <+: normalizePath path ↔
    '/' :: (inner ++ ['/']) <+: absolutePath path ∧ absolutePath path ≠ '/' :: (inner ++ ['/'])
  := by
  have hnormal : normalizePath path =
      if (absolutePath path).length > 1 ∧ (absolutePath path).getLast? = some '/' then
        (absolutePath path).dropLast else absolutePath path := rfl
  generalize absolutePath path = q at hnormal
  rw [hnormal]
  split
  · rename_i hlast
    obtain ⟨front, rfl⟩ := List.getLast?_eq_some_iff.mp hlast.2
    rw [List.dropLast_concat]
    constructor
    · intro hstart
      refine ⟨hstart.trans (List.prefix_append _ _), ?_⟩
      intro heq
      have hle := hstart.length_le
      rw [← heq, List.length_append, List.length_singleton] at hle
      omega
    · rintro ⟨hstart, hne⟩
      rcases List.prefix_concat_iff.mp hstart with heq | hstart
      · exact absurd heq.symm hne
      · exact hstart
  · rename_i hlast
    constructor
    · intro hstart
      refine ⟨hstart, ?_⟩
      rintro rfl
      apply hlast
      rw [← List.cons_append, List.getLast?_concat]
      exact ⟨by simp, rfl⟩
    · exact And.left

/-- A test that accepts what starts with the prefix or with its relative form is exact for a
path under the condition. -/
theorem accepts_exact_iff {inner path : Text} :
  ('/' :: (inner ++ ['/']) <+: path ∨ inner ++ ['/'] <+: path ↔
    '/' :: (inner ++ ['/']) <+: normalizePath path) ↔ PrefixExact ('/' :: (inner ++ ['/'])) path
  := by
  have hdrop : ('/' :: (inner ++ ['/'])).drop 1 = inner ++ ['/'] := rfl
  rw [prefix_normalizePath_iff]
  unfold PrefixExact absolutePath
  rw [hdrop]
  by_cases hhead : path.head? = some '/'
  · rw [if_pos hhead]
    have hself : path = '/' :: (inner ++ ['/']) → '/' :: (inner ++ ['/']) <+: path := by
      rintro rfl
      exact List.prefix_refl _
    tauto
  · rw [if_neg hhead]
    have hno : ¬ '/' :: (inner ++ ['/']) <+: path := by
      rintro ⟨rest, rfl⟩
      exact hhead rfl
    rw [List.cons_prefix_cons]
    have hself : '/' :: path = '/' :: (inner ++ ['/']) → inner ++ ['/'] <+: path := by
      rintro ⟨⟩
      exact List.prefix_refl _
    tauto

/-- The filters of webhooks and of `comment-list` accept exactly the paths whose normalized form
starts with the prefix, where the condition holds. -/
theorem path_prefix_filters_exact_iff (path : Text) :
  (∀ raw pathPrefix (s : SubscriptionRow),
    normalizeWebhookPathPrefix raw = .ok (some pathPrefix) → s.pathPrefix = some pathPrefix →
      ((s.AcceptsPath path ↔ pathPrefix <+: normalizePath path) ↔
        PrefixExact pathPrefix path)) ∧
  ∀ pathPrefix,
    (CommentInPrefix pathPrefix path ↔ normalizePrefix pathPrefix <+: normalizePath path) ↔
      (normalizePrefix pathPrefix = ['/'] ∨ PrefixExact (normalizePrefix pathPrefix) path)
  := by
  constructor
  · intro raw pathPrefix s hraw hs
    obtain ⟨inner, hinner⟩ : ∃ inner, pathPrefix = '/' :: (inner ++ ['/']) := by
      unfold normalizeWebhookPathPrefix at hraw
      split at hraw
      · cases hraw
      · dsimp only at hraw
        split_ifs at hraw with hinside hroot
        · cases hraw
        · rw [Except.ok.injEq, Option.some.injEq] at hraw
          rw [← hraw]
          exact exists_inner hroot
    subst hinner
    unfold SubscriptionRow.AcceptsPath
    rw [hs]
    simp only [Option.mem_def, Option.some.injEq, forall_eq']
    rw [pathInPrefix_iff, accepts_exact_iff]
  · intro pathPrefix
    by_cases hroot : normalizePrefix pathPrefix = ['/']
    · have hstarts : ['/'] <+: normalizePath path := by
        obtain ⟨rest, hrest⟩ := List.head?_eq_some_iff.mp (head?_normalizePath path)
        exact ⟨rest, hrest.symm⟩
      have haccepts : CommentInPrefix pathPrefix path := fun hne => absurd hroot hne
      rw [hroot]
      tauto
    · obtain ⟨inner, hinner⟩ := exists_inner hroot
      rw [commentInPrefix_iff hinner, hinner, accepts_exact_iff]
      simp

/-- A subscription of the folder `/docs/`. -/
def docsSubscription : SubscriptionRow where
  id := ['s']
  orgId := ['o']
  driveId := none
  url := "https://example.com".toList
  description := none
  eventTypes := some []
  pathPrefix := some "/docs/".toList
  secretCiphertext := []
  enabled := true
  disabledReason := none
  disabledAt := none
  consecutiveFailures := 0
  failingSince := none
  lastSuccessAt := none
  lastFailureAt := none
  createdBy := ['u']
  createdAt := 0
  updatedAt := 0

theorem path_prefix_filters_exact_iff_docs :
  docsSubscription.AcceptsPath "docs/a.md".toList ∧
    ((docsSubscription.AcceptsPath "docs/a.md".toList ↔
      "/docs/".toList <+: normalizePath "docs/a.md".toList) ↔
        PrefixExact "/docs/".toList "docs/a.md".toList)
  := by
  have hraw : normalizeWebhookPathPrefix (some "docs".toList) = .ok (some "/docs/".toList) := by
    decide +kernel
  exact ⟨by decide +kernel, (path_prefix_filters_exact_iff _).1 _ _ docsSubscription hraw rfl⟩

/-- A prefix with two slashes in front accepts the paths of the folder with one. -/
theorem double_slash_prefix_accepts :
  normalizeWebhookPathPrefix (some "//docs".toList) = .ok (some "//docs/".toList) ∧
    PathInPrefix "//docs/".toList "/docs/a.md".toList ∧
    CommentInPrefix "//docs".toList "/docs/a.md".toList ∧
    ¬ "//docs/".toList <+: normalizePath "/docs/a.md".toList
  := by
  refine ⟨by decide +kernel, by decide +kernel, ?_, by decide +kernel⟩
  unfold CommentInPrefix
  decide +kernel

end AgentFs

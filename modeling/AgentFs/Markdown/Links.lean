import AgentFs.RawFiles.Url

/-!
# Links of a markdown document

Two functions resolve the target of a link: `resolveLinkTarget`, from which the broken-link
warnings of a write are made, and `resolveImageSrc`, from which the viewer loads the file.
-/

namespace AgentFs

/-! ### The link checker -/

/-- The characters of a URL scheme after the first. -/
def IsSchemeChar (c : Char) : Prop :=
  c.isAlphanum = true ∨ c = '+' ∨ c = '.' ∨ c = '-'

instance (c : Char) : Decidable (IsSchemeChar c) :=
  inferInstanceAs (Decidable (_ ∨ _))

/-- `SCHEME.test(target)`. -/
def HasScheme : Text → Prop
  | [] => False
  | c :: rest => c.isAlpha = true ∧ (rest.dropWhile (fun c => IsSchemeChar c)).head? = some ':'

instance : (target : Text) → Decidable (HasScheme target)
  | [] => inferInstanceAs (Decidable False)
  | _ :: _ => inferInstanceAs (Decidable (_ ∧ _))

/-- `text.split(c)[0]`. -/
def splitHead (c : Char) (text : Text) : Text :=
  text.takeWhile (· ≠ c)

/-- Decode, or keep a text with a malformed escape. -/
def safeDecode (value : Text) : Text :=
  (decodeURIComponent value).getD value

/-- The folder of a document, as segments. -/
def docDir (docPath : Text) : List Text :=
  (docPath.splitOn '/').dropLast

/-- The drive path a link target points at; none for a target that never names a drive file. -/
def resolveLinkTarget (docPath target : Text) : Option Text :=
  if ['#'] <+: target ∨ ['/', '/'] <+: target ∨ HasScheme target then none
  else
    let bare := safeDecode (splitHead '?' (splitHead '#' target))
    if bare = [] then none
    else
      let base := if ['/'] <+: bare then [] else docDir docPath
      let resolved := (base ++ bare.splitOn '/').foldl resolveSegment []
      some ('/' :: ['/'].intercalate resolved)

/-! ### The viewer -/

/-- What the viewer reads of a URL. -/
structure ViewerUrl where
  origin : Text
  hostname : Text
  pathname : Text
  deriving DecidableEq, Repr

/-- What the viewer makes of the `src` of an image. -/
inductive ImageSrcResolution where
  | external (url : Text)
  | drive (orgId driveId path : Text)
  deriving DecidableEq, Repr

/-- `UUID`: hex digits in groups. -/
def MatchesUuid (text : Text) : Prop :=
  (text.splitOn '-').map List.length = [8, 4, 4, 4, 12] ∧
    ∀ c ∈ text, c ≠ '-' → (hexDigit? c).isSome = true

instance (text : Text) : Decidable (MatchesUuid text) :=
  @instDecidableAnd _ _ _ (List.decidableBAll _ text)

/-- `DRIVE_VIEWER_PATH.exec(pathname)`: the org, the drive and the path. -/
def driveViewerPath (pathname : Text) : Option (Text × Text × Text) :=
  let start := "/file/~/".toList
  let rest := pathname.drop start.length
  let orgId := rest.take 36
  let driveId := (rest.drop 37).take 36
  let path := rest.drop 74
  if start <+: pathname ∧ MatchesUuid orgId ∧ rest[36]? = some '/' ∧ MatchesUuid driveId ∧
      rest[73]? = some '/' ∧ path ≠ [] ∧ path.all (¬ IsLineTerminator ·) then
    some (orgId, driveId, path)
  else none

/-- Only such an origin makes a URL of the viewer's form a reference to a drive. -/
def IsTrustedViewerOrigin (url : ViewerUrl) (currentOrigin : Text) : Prop :=
  (currentOrigin ≠ [] ∧ url.origin = currentOrigin) ∨
    url.hostname = "localhost".toList ∨ url.hostname = "127.0.0.1".toList

instance (url : ViewerUrl) (currentOrigin : Text) : Decidable (IsTrustedViewerOrigin url currentOrigin) :=
  inferInstanceAs (Decidable (_ ∨ _))

/-- `safeDecodeURIComponent` of the viewer. -/
def safeDecodeURIComponent (segment : Text) : Text :=
  safeDecode segment

/-- Drop a query and a fragment. -/
def stripQueryAndHash (path : Text) : Text :=
  splitHead '?' (splitHead '#' path)

/-- Resolve a path against the folder of a document, clamped at the drive root. -/
def resolveRelativePath (docPath relative : Text) : Text :=
  ['/'].intercalate ((docDir docPath ++ relative.splitOn '/').foldl resolveSegment [])

section

variable (parseUrl : Text → Option ViewerUrl)

/-- Whether an image is rendered as it is, or which drive file it is; `parseUrl` is `new URL(src)`,
none where that throws. -/
def resolveImageSrc (src docPath routeOrgId routeDriveId currentOrigin : Text) :
    ImageSrcResolution :=
  match parseUrl src with
  | some url =>
      if IsTrustedViewerOrigin url currentOrigin then
        match driveViewerPath url.pathname with
        | some (orgId, driveId, path) => .drive orgId driveId (safeDecodeURIComponent path)
        | none => .external src
      else .external src
  | none =>
      if ['/'] <+: src then
        .drive routeOrgId routeDriveId (safeDecodeURIComponent (stripQueryAndHash (src.drop 1)))
      else
        .drive routeOrgId routeDriveId
          (resolveRelativePath docPath (safeDecodeURIComponent (stripQueryAndHash src)))

/-- The checker and the viewer agree on a target: it is external for both, or the same path of
the drive up to the leading slash. -/
def LinksAgree (docPath target orgId driveId currentOrigin : Text) : Prop :=
  match resolveLinkTarget docPath target,
    resolveImageSrc parseUrl target docPath orgId driveId currentOrigin with
  | none, .external _ => True
  | some path, .drive orgId' driveId' path' =>
      orgId' = orgId ∧ driveId' = driveId ∧ (path = path' ∨ path = '/' :: path')
  | _, _ => False

end

/-! ### Resolved segments -/

/-- A segment that is the name of a file or a folder. -/
def PlainSegment (s : Text) : Prop :=
  s ≠ [] ∧ s ≠ ['.'] ∧ s ≠ ['.', '.']

instance (s : Text) : Decidable (PlainSegment s) :=
  inferInstanceAs (Decidable (_ ∧ _))

/-- Plain segments as they come from a split. -/
def Resolved (segments : List Text) : Prop :=
  ∀ s ∈ segments, PlainSegment s ∧ '/' ∉ s

theorem Resolved.resolveSegment {dir : List Text} {s : Text} (h : Resolved dir) (hs : '/' ∉ s) :
  Resolved (resolveSegment dir s)
  := by
  unfold AgentFs.resolveSegment
  split_ifs with hskip hup
  · exact h
  · intro t ht
    exact h t (List.dropLast_subset _ ht)
  · intro t ht
    rcases List.mem_append.mp ht with ht | ht
    · exact h t ht
    · obtain rfl := List.mem_singleton.mp ht
      exact ⟨⟨fun hnil => hskip (.inl hnil), fun hdot => hskip (.inr hdot), hup⟩, hs⟩

theorem Resolved.foldl {dir segments : List Text} (h : Resolved dir)
    (hsegments : ∀ s ∈ segments, '/' ∉ s) :
  Resolved (segments.foldl AgentFs.resolveSegment dir)
  := by
  induction segments generalizing dir with
  | nil => exact h
  | cons s segments ih =>
      apply ih (h.resolveSegment (hsegments s List.mem_cons_self))
      intro t ht
      exact hsegments t (List.mem_cons_of_mem _ ht)

/-- Plain segments go down. -/
theorem foldl_resolveSegment_plain {segments : List Text} (dir : List Text)
    (h : ∀ s ∈ segments, PlainSegment s) :
  segments.foldl resolveSegment dir = dir ++ segments
  := by
  rw [foldl_resolveSegment _ _ (fun s hs => (h s hs).2), List.filter_eq_self.mpr]
  intro s hs
  exact decide_eq_true (h s hs).1

/-- The text of resolved segments is empty or starts with a name. -/
theorem Resolved.not_slash {segments : List Text} (h : Resolved segments) :
  ¬ ['/'] <+: ['/'].intercalate segments
  := by
  cases segments with
  | nil => decide
  | cons s segments =>
      obtain ⟨⟨hnil, -, -⟩, hslash⟩ := h s List.mem_cons_self
      obtain ⟨c, s, rfl⟩ := List.exists_cons_of_ne_nil hnil
      have hne : '/' ≠ c := fun heq => hslash (heq ▸ List.mem_cons_self)
      cases segments with
      | nil =>
          rw [List.intercalate_singleton, List.cons_prefix_cons]
          exact fun hstart => hne hstart.1
      | cons t segments =>
          rw [List.intercalate_cons_cons, List.cons_append, List.cons_append,
            List.cons_prefix_cons]
          exact fun hstart => hne hstart.1

theorem Resolved.splitOn {segments : List Text} (h : Resolved segments) (hne : segments ≠ []) :
  (['/'].intercalate segments).splitOn '/' = segments
  := List.splitOn_intercalate '/' (fun s hs => (h s hs).2) hne

theorem Resolved.intercalate_ne_nil {segments : List Text} (h : Resolved segments)
    (hne : segments ≠ []) :
  ['/'].intercalate segments ≠ []
  := by
  intro hnil
  have hsplit := h.splitOn hne
  rw [hnil] at hsplit
  have hmem : [] ∈ segments := by
    rw [← hsplit]
    exact List.mem_singleton_self []
  exact (h [] hmem).1.1 rfl

theorem Resolved.intercalate_inj {a b : List Text} (ha : Resolved a) (hb : Resolved b)
    (h : ['/'].intercalate a = ['/'].intercalate b) :
  a = b
  := by
  by_cases hnil : a = []
  · subst hnil
    by_contra hne
    exact hb.intercalate_ne_nil (fun hb => hne hb.symm) h.symm
  · have hnil' : b ≠ [] := by
      rintro rfl
      exact ha.intercalate_ne_nil hnil h
    rw [← ha.splitOn hnil, h, hb.splitOn hnil']

/-! ### Climbing -/

/-- One segment: how far the segments so far lead below, and how far above, where they start. -/
def climb (level : Nat × Nat) (s : Text) : Nat × Nat :=
  if s = [] ∨ s = ['.'] then level
  else if s = ['.', '.'] then
    if level.1 = 0 then (0, level.2 + 1) else (level.1 - 1, level.2)
  else (level.1 + 1, level.2)

/-- How many directories above the one where they start the segments climb. -/
def climbs (segments : List Text) : Nat :=
  (segments.foldl climb (0, 0)).2

/-- Segments leave what they do not climb out of, and add what they resolve to by themselves. -/
theorem foldl_resolveSegment_climb (dir segments : List Text) :
  (segments.foldl resolveSegment []).length = (segments.foldl climb (0, 0)).1 ∧
    segments.foldl resolveSegment dir =
      dir.take (dir.length - climbs segments) ++ segments.foldl resolveSegment []
  := by
  unfold climbs
  induction segments using List.reverseRecOn with
  | nil => simp
  | append_singleton segments s ih =>
      obtain ⟨hlength, hdir⟩ := ih
      rw [List.foldl_append, List.foldl_append, List.foldl_append, hdir]
      generalize segments.foldl resolveSegment [] = below at *
      generalize segments.foldl climb (0, 0) = level at *
      simp only [List.foldl_cons, List.foldl_nil, climb, resolveSegment]
      split_ifs with hskip hup hzero
      · exact ⟨hlength, rfl⟩
      · obtain rfl := List.eq_nil_of_length_eq_zero (hlength.trans hzero)
        refine ⟨rfl, ?_⟩
        rw [List.append_nil, List.dropLast_eq_take, List.take_take, List.length_take]
        simp only [List.dropLast_nil, List.append_nil]
        congr 1
        omega
      · have hne : below ≠ [] := by
          rintro rfl
          exact hzero hlength.symm
        refine ⟨by rw [List.length_dropLast, hlength], ?_⟩
        rw [List.dropLast_append_of_ne_nil hne]
      · refine ⟨by rw [List.length_append, hlength, List.length_singleton], ?_⟩
        rw [List.append_assoc]

/-- Segments that climb out of the directory where they start do not depend on it. -/
theorem foldl_resolveSegment_eq_iff (dir segments : List Text) :
  segments.foldl resolveSegment dir = segments.foldl resolveSegment [] ↔
    dir.length ≤ climbs segments
  := by
  rw [(foldl_resolveSegment_climb dir segments).2]
  rw [List.append_left_eq_self, List.take_eq_nil_iff]
  constructor
  · rintro (hzero | rfl)
    · omega
    · exact Nat.zero_le _
  · intro hle
    left
    omega

/-! ### Decoding -/

/-- Octets left over decode to nothing only where there are none. -/
theorem decodeOctets_eq_nil {pending : Option PartialChar} {octets : List (Char ⊕ Nat)}
    (h : decodeOctets pending octets = some []) :
  pending = none ∧ octets = []
  := by
  induction octets generalizing pending with
  | nil =>
      unfold decodeOctets at h
      split_ifs at h with hpending
      exact ⟨hpending, rfl⟩
  | cons octet octets ih =>
      cases octet with
      | inl c =>
          unfold decodeOctets at h
          split_ifs at h
          obtain ⟨text, -, hcons⟩ := Option.map_eq_some_iff.mp h
          cases hcons
      | inr octet =>
          unfold decodeOctets at h
          obtain ⟨next, -, h⟩ := Option.bind_eq_some_iff.mp h
          cases next with
          | inl char => cases (ih h).1
          | inr c =>
              obtain ⟨text, -, hcons⟩ := Option.map_eq_some_iff.mp h
              cases hcons

theorem safeDecode_ne_nil {value : Text} (h : value ≠ []) :
  safeDecode value ≠ []
  := by
  unfold safeDecode
  cases hdecode : decodeURIComponent value with
  | none => exact h
  | some text =>
      rintro rfl
      obtain ⟨octets, hoctets, hnil⟩ := Option.bind_eq_some_iff.mp hdecode
      obtain ⟨-, rfl⟩ := decodeOctets_eq_nil hnil
      obtain ⟨c, rest, rfl⟩ := List.exists_cons_of_ne_nil h
      unfold escapedOctets at hoctets
      split_ifs at hoctets
      · obtain ⟨octets, -, hcons⟩ := Option.map_eq_some_iff.mp hoctets
        cases hcons
      · split at hoctets
        · obtain ⟨octet, -, hrest⟩ := Option.bind_eq_some_iff.mp hoctets
          obtain ⟨octets, -, hcons⟩ := Option.map_eq_some_iff.mp hrest
          cases hcons
        · cases hoctets

theorem safeDecode_slash (rest : Text) :
  safeDecode ('/' :: rest) = '/' :: safeDecode rest
  := by
  have hescaped : escapedOctets ('/' :: rest) = (escapedOctets rest).map (.inl '/' :: ·) := by
    rw [escapedOctets.eq_def]
    exact if_pos (by decide)
  have hslash : decodeURIComponent ('/' :: rest) = (decodeURIComponent rest).map ('/' :: ·) := by
    unfold decodeURIComponent
    rw [hescaped]
    cases escapedOctets rest with
    | none => rfl
    | some octets => rfl
  unfold safeDecode
  rw [hslash]
  cases decodeURIComponent rest with
  | none => rfl
  | some text => rfl

theorem stripQueryAndHash_slash (rest : Text) :
  stripQueryAndHash ('/' :: rest) = '/' :: stripQueryAndHash rest
  := rfl

/-! ### Agreement -/

/-- Drop one leading slash. -/
def dropSlash : Text → Text
  | '/' :: rest => rest
  | path => path

/-- A path without empty segments and without dot segments. -/
def PlainPath (path : Text) : Prop :=
  path = [] ∨ ∀ s ∈ path.splitOn '/', PlainSegment s

instance (path : Text) : Decidable (PlainPath path) :=
  inferInstanceAs (Decidable (_ ∨ _))

/-- The target as a path: without query and fragment, decoded. -/
def targetPath (target : Text) : Text :=
  safeDecode (stripQueryAndHash target)

/-- The condition under which the checker and the viewer agree.  A target that is a URL starts
with a scheme or two slashes.  Another one does not; after a leading slash it has no empty and no
dot segments, and one that only decodes to a leading slash leaves the folder of the document. -/
def ResolvedAlike (parseUrl : Text → Option ViewerUrl) (docPath target : Text) : Prop :=
  if (parseUrl target).isSome = true then ['/', '/'] <+: target ∨ HasScheme target
  else
    ¬ (['/', '/'] <+: target ∨ HasScheme target) ∧
      if ['/'] <+: target then PlainPath (dropSlash (dropSlash (targetPath target)))
      else
        ['/'] <+: targetPath target →
          ((docDir docPath).foldl resolveSegment []).length ≤
            climbs ((targetPath target).splitOn '/')

instance (parseUrl : Text → Option ViewerUrl) (docPath target : Text) :
    Decidable (ResolvedAlike parseUrl docPath target) := by
  unfold ResolvedAlike
  infer_instance

/-- A target that names something before any query or fragment, and is not a URL on a trusted
viewer origin. -/
structure LinkTarget (parseUrl : Text → Option ViewerUrl) (target currentOrigin : Text) : Prop where
  named : stripQueryAndHash target ≠ []
  untrusted : ∀ url, parseUrl target = some url → ¬ IsTrustedViewerOrigin url currentOrigin

/-- A path is what its segments resolve to exactly when it is plain. -/
theorem plainPath_iff (path : Text) :
  ['/'].intercalate ((path.splitOn '/').foldl resolveSegment []) = path ↔ PlainPath path
  := by
  have hresolved : Resolved ((path.splitOn '/').foldl resolveSegment []) :=
    Resolved.foldl (fun s hs => absurd hs List.not_mem_nil) (fun s hs => slash_not_mem_of_mem_splitOn hs)
  constructor
  · intro h
    by_cases hnil : (path.splitOn '/').foldl resolveSegment [] = []
    · left
      rw [← h, hnil]
      rfl
    · right
      intro s hs
      rw [← h, hresolved.splitOn hnil] at hs
      exact (hresolved s hs).1
  · rintro (rfl | hplain)
    · rfl
    · rw [foldl_resolveSegment_plain [] hplain, List.nil_append]
      exact List.intercalate_splitOn '/'

/-- A leading slash plays no part in the resolution of a path. -/
theorem foldl_splitOn_slash (dir : List Text) (path : Text) :
  (('/' :: path).splitOn '/').foldl resolveSegment dir =
    (path.splitOn '/').foldl resolveSegment dir
  := by
  have hsplit : ('/' :: path).splitOn '/' = [] :: path.splitOn '/' := by
    rw [List.splitOn_eq_splitOnP, List.splitOnP_cons_eq_if_modifyHead]
    exact if_pos (by decide)
  rw [hsplit]
  rfl

theorem foldl_dropSlash (dir : List Text) (path : Text) :
  ((dropSlash path).splitOn '/').foldl resolveSegment dir =
    (path.splitOn '/').foldl resolveSegment dir
  := by
  unfold dropSlash
  split
  · exact (foldl_splitOn_slash dir _).symm
  · rfl

section

variable {parseUrl : Text → Option ViewerUrl} {docPath target orgId driveId currentOrigin : Text}

/-- The checker on a target that names something. -/
theorem resolveLinkTarget_eq (hnamed : stripQueryAndHash target ≠ []) :
  resolveLinkTarget docPath target =
    if ['/', '/'] <+: target ∨ HasScheme target then none
    else some ('/' :: ['/'].intercalate (((if ['/'] <+: targetPath target then []
      else docDir docPath) ++ (targetPath target).splitOn '/').foldl resolveSegment []))
  := by
  have hhash : ¬ ['#'] <+: target := by
    intro hstart
    obtain ⟨rest, rfl⟩ := hstart
    exact hnamed rfl
  have hpath : safeDecode (splitHead '?' (splitHead '#' target)) = targetPath target := rfl
  have hne : targetPath target ≠ [] := safeDecode_ne_nil hnamed
  unfold resolveLinkTarget
  simp only [hhash, false_or, hpath, hne, if_false]

/-- The viewer on a target that is not a URL on a trusted origin. -/
theorem resolveImageSrc_eq
    (huntrusted : ∀ url, parseUrl target = some url → ¬ IsTrustedViewerOrigin url currentOrigin) :
  resolveImageSrc parseUrl target docPath orgId driveId currentOrigin =
    if (parseUrl target).isSome = true then .external target
    else .drive orgId driveId
      (if ['/'] <+: target then dropSlash (targetPath target)
        else resolveRelativePath docPath (targetPath target))
  := by
  unfold resolveImageSrc
  cases hparse : parseUrl target with
  | some url =>
      dsimp only
      rw [if_neg (huntrusted url hparse)]
      rfl
  | none =>
      simp only [Option.isSome_none, Bool.false_eq_true, if_false]
      split_ifs with hslash
      · obtain ⟨rest, rfl⟩ := hslash
        unfold targetPath
        rw [List.singleton_append, stripQueryAndHash_slash, safeDecode_slash]
        rfl
      · rfl

end

/-- What the checker and the viewer resolve to. -/
theorem resolved_split {dir : List Text} (hdir : ∀ s ∈ dir, '/' ∉ s) (path : Text) :
  Resolved ((dir ++ path.splitOn '/').foldl resolveSegment [])
  := by
  apply Resolved.foldl (fun s hs => absurd hs List.not_mem_nil)
  intro s hs
  rcases List.mem_append.mp hs with hs | hs
  · exact hdir s hs
  · exact slash_not_mem_of_mem_splitOn hs

/-- The two paths of a target with a leading slash. -/
theorem rooted_agree_iff (path : Text) :
  ('/' :: ['/'].intercalate ((path.splitOn '/').foldl resolveSegment []) = path ∨
      '/' :: ['/'].intercalate ((path.splitOn '/').foldl resolveSegment []) = '/' :: path) ↔
    PlainPath (dropSlash path)
  := by
  have hresolved : Resolved ((path.splitOn '/').foldl resolveSegment []) :=
    resolved_split (fun s hs => absurd hs List.not_mem_nil) path
  rw [← plainPath_iff, foldl_dropSlash]
  generalize (path.splitOn '/').foldl resolveSegment [] = segments at *
  unfold dropSlash
  split
  · rename_i rest
    rw [List.cons.injEq, List.cons.injEq]
    constructor
    · rintro (⟨-, h⟩ | ⟨-, h⟩)
      · exact h
      · exact absurd ⟨rest, h.symm⟩ hresolved.not_slash
    · exact fun h => .inl ⟨rfl, h⟩
  · rename_i hrooted
    rw [List.cons.injEq]
    constructor
    · rintro (h | ⟨-, h⟩)
      · exact absurd h.symm (hrooted _)
      · exact h
    · exact fun h => .inr ⟨rfl, h⟩

/-- The two paths of a target that decodes to a leading slash. -/
theorem decoded_agree_iff (docPath path : Text) :
  ('/' :: ['/'].intercalate ((path.splitOn '/').foldl resolveSegment []) =
        resolveRelativePath docPath path ∨
      '/' :: ['/'].intercalate ((path.splitOn '/').foldl resolveSegment []) =
        '/' :: resolveRelativePath docPath path) ↔
    ((docDir docPath).foldl resolveSegment []).length ≤ climbs (path.splitOn '/')
  := by
  have hdir : ∀ s ∈ docDir docPath, '/' ∉ s :=
    fun s hs => slash_not_mem_of_mem_splitOn (List.dropLast_subset _ hs)
  have hrelative := resolved_split hdir path
  have hresolved : Resolved ((path.splitOn '/').foldl resolveSegment []) :=
    resolved_split (fun s hs => absurd hs List.not_mem_nil) path
  rw [← foldl_resolveSegment_eq_iff, ← List.foldl_append]
  unfold resolveRelativePath
  rw [List.cons.injEq]
  constructor
  · rintro (h | ⟨-, h⟩)
    · exact absurd ⟨_, h⟩ hrelative.not_slash
    · exact (hresolved.intercalate_inj hrelative h).symm
  · intro h
    right
    rw [h]
    exact ⟨rfl, rfl⟩

/-- The checker and the viewer agree on a target if and only if the condition holds of it. -/
theorem links_agree_iff {parseUrl : Text → Option ViewerUrl}
    {docPath target orgId driveId currentOrigin : Text}
    (h : LinkTarget parseUrl target currentOrigin) :
  LinksAgree parseUrl docPath target orgId driveId currentOrigin ↔
    ResolvedAlike parseUrl docPath target
  := by
  unfold LinksAgree ResolvedAlike
  rw [resolveLinkTarget_eq h.named, resolveImageSrc_eq h.untrusted]
  by_cases hexternal : ['/', '/'] <+: target ∨ HasScheme target
  · by_cases hurl : (parseUrl target).isSome = true
    · simp only [if_pos hexternal, if_pos hurl]
      exact ⟨fun _ => hexternal, fun _ => trivial⟩
    · simp only [if_pos hexternal, if_neg hurl]
      exact ⟨False.elim, fun hboth => hboth.1 hexternal⟩
  · by_cases hurl : (parseUrl target).isSome = true
    · simp only [if_neg hexternal, if_pos hurl]
      exact ⟨False.elim, fun hboth => hexternal hboth⟩
    · simp only [if_neg hexternal, if_neg hurl, true_and]
      rw [and_iff_right hexternal]
      by_cases hslash : ['/'] <+: target
      · have hpath : ['/'] <+: targetPath target := by
          obtain ⟨rest, rfl⟩ := hslash
          unfold targetPath
          rw [List.singleton_append, stripQueryAndHash_slash, safeDecode_slash]
          exact List.prefix_append ['/'] _
        simp only [if_pos hslash, if_pos hpath, List.nil_append]
        rw [← rooted_agree_iff, foldl_dropSlash]
      · simp only [if_neg hslash]
        by_cases hpath : ['/'] <+: targetPath target
        · simp only [if_pos hpath, List.nil_append]
          rw [decoded_agree_iff]
          exact ⟨fun hle _ => hle, fun h => h hpath⟩
        · simp only [if_neg hpath]
          exact ⟨fun _ hrooted => absurd hrooted hpath, fun _ => .inr rfl⟩

/-- A relative target is not a URL by itself. -/
theorem links_agree_relative :
  LinksAgree (fun _ => none) "/a/c.md".toList "../b%20c.png?v=2#top".toList "org".toList
    "drive".toList "https://live.agent-fs.dev".toList
  := by
  have htarget : LinkTarget (fun _ => none) "../b%20c.png?v=2#top".toList
      "https://live.agent-fs.dev".toList := by
    constructor
    · decide +kernel
    · rintro url ⟨⟩
  rw [links_agree_iff htarget]
  decide +kernel

/-- The checker looks for `/b.png`, the viewer for `a/../b.png`. -/
theorem links_disagree_dots :
  let target := "/a/../b.png".toList
  let origin := "https://live.agent-fs.dev".toList
  trim target = target ∧ LinkTarget (fun _ => none) target origin ∧
    ¬ LinksAgree (fun _ => none) "/c.md".toList target "org".toList "drive".toList origin
  := by
  refine ⟨by decide +kernel, ⟨by decide +kernel, ?_⟩, ?_⟩
  · rintro url ⟨⟩
  · have hchecker : resolveLinkTarget "/c.md".toList "/a/../b.png".toList =
        some "/b.png".toList := by
      decide +kernel
    have hviewer : resolveImageSrc (fun _ => none) "/a/../b.png".toList "/c.md".toList "org".toList
        "drive".toList "https://live.agent-fs.dev".toList =
          .drive "org".toList "drive".toList "a/../b.png".toList := by
      decide +kernel
    unfold LinksAgree
    rw [hchecker, hviewer]
    rintro ⟨-, -, hsame | hsame⟩
    · revert hsame
      decide +kernel
    · revert hsame
      decide +kernel

end AgentFs

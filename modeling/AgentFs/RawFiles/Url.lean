import AgentFs.JustBash.Drive
import AgentFs.RawFiles.Escapes

/-!
# The URLs of raw files

The URL of a file as the two clients build it, `rawUrl` of just-bash and the requests of the
FUSE helper, and the path that the route `files/*` reads from it.  A URL is its pathname, in
which the parsing of URLs leaves escapes as they are.
-/

namespace AgentFs

/-! ### The clients -/

/-- A normalized path of the client as text. -/
def routeText (route : JustBash.Route) : Text :=
  '/' :: ['/'].intercalate route

/-- The client's `normalizePath`. -/
def clientNormalizePath (path : Text) : Text :=
  routeText (JustBash.normalizePath path)

/-- The pathname of a request to the route of raw files. -/
def rawPathname (orgId driveId encoded : Text) : Text :=
  "/orgs/".toList ++ orgId ++ "/drives/".toList ++ driveId ++ "/files/".toList ++ encoded ++
    "/raw".toList

/-- `rawUrl` of just-bash. -/
def rawUrl (orgId driveId path : Text) : Text :=
  let encoded := ['/'].intercalate
    (((path.dropWhile (· = '/')).splitOn '/').map encodeURIComponent)
  rawPathname (encodeURIComponent orgId) (encodeURIComponent driveId) encoded

/-- The characters that `url_encode_path` keeps. -/
def IsPathUnreserved (c : Char) : Prop :=
  c = '/' ∨ c.isAlphanum ∨ c ∈ "-_.~".toList

instance : DecidablePred IsPathUnreserved := fun c =>
  inferInstanceAs (Decidable (c = '/' ∨ c.isAlphanum ∨ c ∈ "-_.~".toList))

/-- `url_encode_path` of the FUSE helper. -/
def urlEncodePath (path : Text) : Text :=
  percentEncode IsPathUnreserved path

/-- The URL of `do_open_read`, `do_open_write` and `do_create_file`. -/
def fuseRawUrl (orgId driveId path : Text) : Text :=
  rawPathname orgId driveId (urlEncodePath (stripLeadingSlash path))

/-! ### The server -/

/-- The pathname is one of the route `/orgs/:orgId/drives/:driveId/files/*`. -/
def MatchesRawRoute (pathname : Text) : Prop :=
  ∃ orgId driveId rest, orgId ≠ [] ∧ driveId ≠ [] ∧ pathname.splitOn '/' =
    [] :: "orgs".toList :: orgId :: "drives".toList :: driveId :: "files".toList :: rest

/-- The characters that `.` does not match in a regular expression. -/
def IsLineTerminator (c : Char) : Prop :=
  c = '\n' ∨ c = '\r' ∨ c.toNat = 0x2028 ∨ c.toNat = 0x2029

instance : DecidablePred IsLineTerminator := fun c =>
  inferInstanceAs (Decidable (c = '\n' ∨ c = '\r' ∨ c.toNat = 0x2028 ∨ c.toNat = 0x2029))

/-- The group of `(.+)\/raw$` when the text matches it. -/
def beforeRaw (text : Text) : Option Text :=
  let group := text.take (text.length - 4)
  if "/raw".toList <:+ text ∧ group ≠ [] ∧ group.all (¬ IsLineTerminator ·) then some group
  else none

/-- The group of the first match of `/\/files\/(.+)\/raw$/`. -/
def matchRaw : Text → Option Text
  | [] => none
  | c :: text =>
      if "/files/".toList <+: c :: text then
        (beforeRaw ((c :: text).drop 7)).orElse (fun _ => matchRaw text)
      else matchRaw text

/-- The path of the file that the route serves; none where it answers that the path is invalid,
or `decodeURIComponent` throws. -/
def rawFilePath (pathname : Text) : Option Text := do
  let decoded ← decodeURIComponent (← matchRaw pathname)
  pure (normalizePath decoded)

/-! ### Matching -/

theorem beforeRaw_append {encoded : Text} (hnil : encoded ≠ [])
    (hline : ∀ c ∈ encoded, ¬ IsLineTerminator c) :
  beforeRaw (encoded ++ "/raw".toList) = some encoded
  := by
  have htake : (encoded ++ "/raw".toList).take ((encoded ++ "/raw".toList).length - 4) =
      encoded := by
    rw [List.length_append]
    exact List.take_left' rfl
  unfold beforeRaw
  dsimp only
  rw [htake, if_pos ⟨List.suffix_append _ _, hnil, by simpa using hline⟩]

theorem matchRaw_skip {text : Text} (hslash : '/' ∉ text) (rest : Text) :
  matchRaw (text ++ rest) = matchRaw rest
  := by
  induction text with
  | nil => rfl
  | cons c text ih =>
      rw [List.mem_cons, not_or] at hslash
      rw [List.cons_append, matchRaw, if_neg, ih hslash.2]
      intro hstart
      obtain ⟨tail, htail⟩ := hstart
      injection htail with hc
      exact hslash.1 hc

theorem takeWhile_slash {segment : Text} (hslash : '/' ∉ segment) (rest : Text) :
  (segment ++ '/' :: rest).takeWhile (· ≠ '/') = segment
  := by
  rw [List.takeWhile_append_of_pos]
  · simp
  · intro c hc
    rw [decide_eq_true_eq]
    rintro rfl
    exact hslash hc

/-- A segment that is not `files`. -/
theorem matchRaw_segment {segment : Text} (hslash : '/' ∉ segment)
    (hfiles : segment ≠ "files".toList) (rest : Text) :
  matchRaw ('/' :: (segment ++ '/' :: rest)) = matchRaw ('/' :: rest)
  := by
  have hno : ¬ "/files/".toList <+: '/' :: (segment ++ '/' :: rest) := by
    rintro ⟨tail, htail⟩
    have hsame : "files".toList ++ '/' :: tail = segment ++ '/' :: rest :=
      (List.cons.inj htail).2
    have hfirst := congrArg (List.takeWhile (· ≠ '/')) hsame
    rw [takeWhile_slash (by decide), takeWhile_slash hslash] at hfirst
    exact hfiles hfirst.symm
  rw [matchRaw, if_neg hno, matchRaw_skip hslash]

/-- The ids of organizations and drives, as `crypto.randomUUID` makes them. -/
def IsUuid (id : Text) : Prop :=
  id.length = 36 ∧ ∀ c ∈ id, c.isAlphanum ∨ c = '-'

theorem IsUuid.slash {id : Text} (h : IsUuid id) :
  '/' ∉ id
  := by
  intro hslash
  exact absurd (h.2 _ hslash) (by decide)

theorem IsUuid.ne_files {id : Text} (h : IsUuid id) :
  id ≠ "files".toList
  := by
  rintro rfl
  exact absurd h.1 (by decide)

theorem IsUuid.ne_nil {id : Text} (h : IsUuid id) :
  id ≠ []
  := by
  rintro rfl
  exact absurd h.1 (by decide)

theorem IsUuid.encode {id : Text} (h : IsUuid id) :
  encodeURIComponent id = id
  := by
  rw [encodeURIComponent_eq]
  apply percentEncode_of_forall
  intro c hc
  rcases h.2 c hc with hc | rfl
  · exact .inl hc
  · exact .inr (by decide)

/-- The pathname in segments, of which the last ones are those of the escaped path. -/
theorem rawPathname_eq (orgId driveId encoded : Text) :
  rawPathname orgId driveId encoded = '/' :: ("orgs".toList ++ '/' :: (orgId ++ '/' ::
    ("drives".toList ++ '/' :: (driveId ++ '/' :: ("files".toList ++ '/' ::
      (encoded ++ "/raw".toList))))))
  := by
  unfold rawPathname
  simp

theorem matchRaw_rawPathname {orgId driveId encoded : Text} (horg : IsUuid orgId)
    (hdrive : IsUuid driveId) (hnil : encoded ≠ [])
    (hline : ∀ c ∈ encoded, ¬ IsLineTerminator c) :
  matchRaw (rawPathname orgId driveId encoded) = some encoded
  := by
  rw [rawPathname_eq, matchRaw_segment (by decide) (by decide),
    matchRaw_segment horg.slash horg.ne_files, matchRaw_segment (by decide) (by decide),
    matchRaw_segment hdrive.slash hdrive.ne_files, matchRaw, if_pos ⟨_, rfl⟩]
  have hdrop : ('/' :: ("files".toList ++ '/' :: (encoded ++ "/raw".toList))).drop 7 =
      encoded ++ "/raw".toList := rfl
  rw [hdrop, beforeRaw_append hnil hline]
  rfl

theorem matchesRawRoute_rawPathname {orgId driveId : Text} (horg : IsUuid orgId)
    (hdrive : IsUuid driveId) (encoded : Text) :
  MatchesRawRoute (rawPathname orgId driveId encoded)
  := by
  refine ⟨orgId, driveId, (encoded ++ "/raw".toList).splitOn '/', horg.ne_nil, hdrive.ne_nil, ?_⟩
  have hslash : ∀ {segment rest : Text}, '/' ∉ segment →
      (segment ++ '/' :: rest).splitOn '/' = segment :: rest.splitOn '/' :=
    fun h => List.splitOn_append_cons_self_of_not_mem h _
  rw [rawPathname_eq, ← List.nil_append ('/' :: _), hslash List.not_mem_nil,
    hslash (by decide), hslash horg.slash, hslash (by decide), hslash hdrive.slash,
    hslash (by decide)]

/-! ### The escaped path -/

theorem isAlphanum_upperHexDigit {n : Nat} (hn : n < 16) :
  (upperHexDigit n).isAlphanum
  := by
  revert n
  decide

/-- An escaped text has the characters that are kept, `%` and digits. -/
theorem mem_percentEncode {keep : Char → Prop} [DecidablePred keep] {text : Text} {c : Char}
    (hc : c ∈ percentEncode keep text) :
  keep c ∨ c = '%' ∨ c.isAlphanum
  := by
  obtain ⟨d, -, hcd⟩ := List.mem_flatMap.mp hc
  split at hcd
  · rename_i hkeep
    rw [List.mem_singleton.mp hcd]
    exact .inl hkeep
  · obtain ⟨b, -, hcb⟩ := List.mem_flatMap.mp hcd
    have hb := b.toNat_lt
    unfold percentByte at hcb
    simp only [List.mem_cons, List.not_mem_nil, or_false] at hcb
    rcases hcb with rfl | rfl | rfl
    · exact .inr (.inl rfl)
    · exact .inr (.inr (isAlphanum_upperHexDigit (by omega)))
    · exact .inr (.inr (isAlphanum_upperHexDigit (by omega)))

theorem isAlphanum_not_isLineTerminator {c : Char} (hc : c.isAlphanum) :
  ¬ IsLineTerminator c
  := by
  rintro (rfl | rfl | h | h)
  · exact absurd hc (by decide)
  · exact absurd hc (by decide)
  · rw [← Char.ofNat_toNat c, h] at hc
    exact absurd hc (by decide)
  · rw [← Char.ofNat_toNat c, h] at hc
    exact absurd hc (by decide)

/-- `encodeURIComponent` of every segment is one encoder of the whole, which keeps `/`. -/
def IsSegmentUnreserved (c : Char) : Prop :=
  c = '/' ∨ IsUriUnreserved c

instance : DecidablePred IsSegmentUnreserved := fun c =>
  inferInstanceAs (Decidable (c = '/' ∨ IsUriUnreserved c))

theorem percentEncode_segment {segment : Text} (hslash : '/' ∉ segment) :
  percentEncode IsSegmentUnreserved segment = encodeURIComponent segment
  := by
  rw [encodeURIComponent_eq]
  unfold percentEncode
  apply List.flatMap_congr
  intro c hc
  have hne : c ≠ '/' := by
    rintro rfl
    exact hslash hc
  have hiff : IsSegmentUnreserved c ↔ IsUriUnreserved c := or_iff_right hne
  simp only [hiff]

theorem intercalate_encodeURIComponent {segments : List Text}
    (hslash : ∀ segment ∈ segments, '/' ∉ segment) :
  ['/'].intercalate (segments.map encodeURIComponent) =
    percentEncode IsSegmentUnreserved (['/'].intercalate segments)
  := by
  induction segments with
  | nil => rfl
  | cons segment rest ih =>
      rw [List.forall_mem_cons] at hslash
      cases rest with
      | nil =>
          rw [List.map_cons, List.map_nil, List.intercalate_singleton,
            List.intercalate_singleton, percentEncode_segment hslash.1]
      | cons next rest =>
          rw [List.map_cons, List.map_cons, List.intercalate_cons_cons, ← List.map_cons,
            ih hslash.2, List.intercalate_cons_cons, percentEncode_append, percentEncode_append,
            percentEncode_segment hslash.1]
          rfl

theorem slash_not_mem_of_mem_splitOn {text segment : Text} (h : segment ∈ text.splitOn '/') :
  '/' ∉ segment
  := by
  intro hslash
  have hfalse := List.not_of_mem_splitOnP h hslash
  exact absurd hfalse (by decide)

theorem rawUrl_eq {orgId driveId : Text} (horg : IsUuid orgId) (hdrive : IsUuid driveId)
    (path : Text) :
  rawUrl orgId driveId path = rawPathname orgId driveId
    (percentEncode IsSegmentUnreserved (path.dropWhile (· = '/')))
  := by
  unfold rawUrl
  rw [intercalate_encodeURIComponent (fun segment h => slash_not_mem_of_mem_splitOn h),
    List.intercalate_splitOn, horg.encode, hdrive.encode]

/-- The server reads back a path that was escaped by either encoder. -/
theorem rawFilePath_rawPathname {orgId driveId : Text} (horg : IsUuid orgId)
    (hdrive : IsUuid driveId) {keep : Char → Prop} [DecidablePred keep] (hpercent : ¬ keep '%')
    (hline : ∀ c, keep c → ¬ IsLineTerminator c) {relative : Text} (hnil : relative ≠ []) :
  rawFilePath (rawPathname orgId driveId (percentEncode keep relative)) =
    some (normalizePath relative)
  := by
  have hencoded : percentEncode keep relative ≠ [] := by
    intro h
    have hdecoded := decodeURIComponent_percentEncode hpercent relative
    rw [h] at hdecoded
    exact hnil (Option.some.inj hdecoded).symm
  have hlines : ∀ c ∈ percentEncode keep relative, ¬ IsLineTerminator c := by
    intro c hc
    rcases mem_percentEncode hc with hkeep | rfl | hdigit
    · exact hline c hkeep
    · decide
    · exact isAlphanum_not_isLineTerminator hdigit
  unfold rawFilePath
  rw [matchRaw_rawPathname horg hdrive hencoded hlines]
  dsimp only [bind, Option.bind]
  rw [decodeURIComponent_percentEncode hpercent]
  rfl

/-- A text of no line terminator, read off one that is written out. -/
theorem not_isLineTerminator_of_all {text : Text} (h : text.all (¬ IsLineTerminator ·) = true)
    {c : Char} (hc : c ∈ text) :
  ¬ IsLineTerminator c
  := of_decide_eq_true (List.all_eq_true.mp h c hc)

theorem isUriUnreserved_not_isLineTerminator {c : Char} (hc : IsUriUnreserved c) :
  ¬ IsLineTerminator c
  := by
  rcases hc with hc | hc
  · exact isAlphanum_not_isLineTerminator hc
  · exact not_isLineTerminator_of_all (by decide) hc

/-! ### Normalized paths -/

/-- A name of a normalized path. -/
def IsPathName (name : Text) : Prop :=
  name ≠ [] ∧ '/' ∉ name

theorem isPathName_walk {route : JustBash.Route} (hroute : ∀ name ∈ route, IsPathName name) {part : Text}
    (hpart : '/' ∉ part) :
  ∀ name ∈ JustBash.walk route part, IsPathName name
  := by
  intro name hname
  unfold JustBash.walk at hname
  split_ifs at hname with hskip hup
  · exact hroute name hname
  · exact hroute name (List.dropLast_subset route hname)
  · rcases List.mem_append.mp hname with hname | hname
    · exact hroute name hname
    · rw [List.mem_singleton.mp hname]
      exact ⟨fun hnil => hskip (.inl hnil), hpart⟩

theorem isPathName_normalizePath (path : Text) :
  ∀ name ∈ JustBash.normalizePath path, IsPathName name
  := by
  suffices hfold : ∀ (parts : List Text) (route : JustBash.Route),
      (∀ part ∈ parts, '/' ∉ part) → (∀ name ∈ route, IsPathName name) →
      ∀ name ∈ parts.foldl JustBash.walk route, IsPathName name from
    hfold _ [] (fun part h => slash_not_mem_of_mem_splitOn h) (fun name h => absurd h
      List.not_mem_nil)
  intro parts
  induction parts with
  | nil => exact fun route _ hroute => hroute
  | cons part parts ih =>
      intro route hparts hroute
      rw [List.forall_mem_cons] at hparts
      exact ih _ hparts.2 (isPathName_walk hroute hparts.1)

/-- The names of a path, joined, are not empty and have no slash at either end. -/
theorem intercalate_ends {route : JustBash.Route} (hroute : ∀ name ∈ route, IsPathName name)
    (hnil : route ≠ []) :
  ['/'].intercalate route ≠ [] ∧ (['/'].intercalate route).head? ≠ some '/' ∧
    (['/'].intercalate route).getLast? ≠ some '/'
  := by
  induction route with
  | nil => exact absurd rfl hnil
  | cons name rest ih =>
      rw [List.forall_mem_cons] at hroute
      obtain ⟨⟨hname, hslash⟩, hrest⟩ := hroute
      have hhead : name.head? ≠ some '/' := fun h => hslash (List.mem_of_head? h)
      cases rest with
      | nil =>
          rw [List.intercalate_singleton]
          exact ⟨hname, hhead, fun h => hslash (List.mem_of_getLast? h)⟩
      | cons next rest =>
          obtain ⟨hne, -, hlast⟩ := ih hrest (List.cons_ne_nil _ _)
          rw [List.intercalate_cons_cons, List.append_assoc]
          refine ⟨by simp [hname], ?_, ?_⟩
          · rw [List.head?_append_of_ne_nil _ hname]
            exact hhead
          · rw [List.getLast?_append_of_ne_nil _ (by simp), List.getLast?_append_of_ne_nil _ hne]
            exact hlast

/-- A normalized path but for the root is a slash and a text without slashes at its ends. -/
theorem exists_relative {path : Text} (hpath : clientNormalizePath path = path)
    (hroot : path ≠ ['/']) :
  ∃ relative, path = '/' :: relative ∧ relative ≠ [] ∧ relative.head? ≠ some '/' ∧
    relative.getLast? ≠ some '/'
  := by
  refine ⟨_, hpath.symm, intercalate_ends (isPathName_normalizePath path) ?_⟩
  intro hnil
  apply hroot
  rw [← hpath]
  unfold clientNormalizePath routeText
  rw [hnil]
  rfl

theorem normalizePath_relative {relative : Text} (hnil : relative ≠ [])
    (hhead : relative.head? ≠ some '/') (hlast : relative.getLast? ≠ some '/') :
  normalizePath relative = '/' :: relative
  := by
  unfold normalizePath
  dsimp only
  rw [if_neg hhead, if_neg]
  rintro ⟨-, h⟩
  rw [List.getLast?_cons_of_ne_nil hnil] at h
  exact hlast h

/-- What the server reads from the URLs of a normalized path is the path: the URLs are of the
route, and the URLs of two paths are not those of one file. -/
theorem rawFilePath_rawUrl {orgId driveId : Text} (horg : IsUuid orgId) (hdrive : IsUuid driveId)
    {path : Text} (hpath : clientNormalizePath path = path) (hroot : path ≠ ['/']) :
  (MatchesRawRoute (rawUrl orgId driveId path) ∧
      rawFilePath (rawUrl orgId driveId path) = some path) ∧
    (MatchesRawRoute (fuseRawUrl orgId driveId path) ∧
      rawFilePath (fuseRawUrl orgId driveId path) = some path) ∧
    ∀ path', clientNormalizePath path' = path' → path' ≠ ['/'] →
      (rawFilePath (rawUrl orgId driveId path') = rawFilePath (rawUrl orgId driveId path) ∨
        rawFilePath (fuseRawUrl orgId driveId path') =
          rawFilePath (rawUrl orgId driveId path) ∨
        rawFilePath (fuseRawUrl orgId driveId path') =
          rawFilePath (fuseRawUrl orgId driveId path)) → path' = path
  := by
  have hjs : ∀ p, clientNormalizePath p = p → p ≠ ['/'] →
      MatchesRawRoute (rawUrl orgId driveId p) ∧ rawFilePath (rawUrl orgId driveId p) = some p := by
    intro p hp hne
    obtain ⟨relative, rfl, hnil, hhead, hlast⟩ := exists_relative hp hne
    have hdrop : ('/' :: relative).dropWhile (· = '/') = relative := by
      rw [List.dropWhile_cons_of_pos (by simp)]
      cases relative with
      | nil => rfl
      | cons c relative =>
          apply List.dropWhile_cons_of_neg
          simpa using hhead
    rw [rawUrl_eq horg hdrive, hdrop]
    refine ⟨matchesRawRoute_rawPathname horg hdrive _, ?_⟩
    rw [rawFilePath_rawPathname horg hdrive (by decide) _ hnil,
      normalizePath_relative hnil hhead hlast]
    rintro c (rfl | hc)
    · decide
    · exact isUriUnreserved_not_isLineTerminator hc
  have hfuse : ∀ p, clientNormalizePath p = p → p ≠ ['/'] →
      MatchesRawRoute (fuseRawUrl orgId driveId p) ∧
        rawFilePath (fuseRawUrl orgId driveId p) = some p := by
    intro p hp hne
    obtain ⟨relative, rfl, hnil, hhead, hlast⟩ := exists_relative hp hne
    have hstrip : stripLeadingSlash ('/' :: relative) = relative := rfl
    unfold fuseRawUrl urlEncodePath
    rw [hstrip]
    refine ⟨matchesRawRoute_rawPathname horg hdrive _, ?_⟩
    rw [rawFilePath_rawPathname horg hdrive (by decide) _ hnil,
      normalizePath_relative hnil hhead hlast]
    rintro c (rfl | hc | hc)
    · decide
    · exact isAlphanum_not_isLineTerminator hc
    · exact not_isLineTerminator_of_all (by decide) hc
  refine ⟨hjs path hpath hroot, hfuse path hpath hroot, ?_⟩
  intro path' hpath' hroot' hsame
  rw [(hjs path hpath hroot).2, (hfuse path hpath hroot).2, (hjs path' hpath' hroot').2,
    (hfuse path' hpath' hroot').2] at hsame
  simpa using hsame

/-- A file whose name has a slash, a percent sign and a question mark when it is decoded twice,
under a folder that is named as the route. -/
theorem rawFilePath_rawUrl_escapes :
  rawFilePath (rawUrl (List.replicate 36 'a') (List.replicate 36 'b')
    "/files/50%2Foff?/raw".toList) = some "/files/50%2Foff?/raw".toList
  := by
  have huuid : ∀ c, c = 'a' ∨ c = 'b' → IsUuid (List.replicate 36 c) := by
    rintro c (rfl | rfl)
    all_goals
      refine ⟨List.length_replicate, ?_⟩
      intro c hc
      rw [List.eq_of_mem_replicate hc]
      decide
  exact (rawFilePath_rawUrl (huuid 'a' (.inl rfl)) (huuid 'b' (.inr rfl)) (by decide +kernel)
    (by decide)).1.2

end AgentFs

import AgentFs.Storage.Keys
import AgentFs.Share.Links

/-!
# Site shares

The route `GET /site/<token>/<path>` serves the files of a shared folder.  The rest of the
request path is decoded exactly once, by `siteObjectKey`, and checked after the decoding;
every storage key that the route reads, and every prefix that it lists, lies in the folder
of the share.
-/

namespace AgentFs

/-! ### `decodeURIComponent` -/

/-- The value of a hex digit. -/
def hexDigit? (c : Char) : Option Nat :=
  if '0' ≤ c ∧ c ≤ '9' then some (c.toNat - '0'.toNat)
  else if 'a' ≤ c ∧ c ≤ 'f' then some (c.toNat - 'a'.toNat + 10)
  else if 'A' ≤ c ∧ c ≤ 'F' then some (c.toNat - 'A'.toNat + 10)
  else none

/-- The octet that two hex digits spell. -/
def hexOctet? (a b : Char) : Option Nat := do
  pure ((← hexDigit? a) * 16 + (← hexDigit? b))

/-- A character whose octets have been read in part: how many are missing, the value so
far, and the least value that needs that many octets. -/
structure PartialChar where
  missing : Nat
  value : Nat
  least : Nat
  deriving DecidableEq, Repr

/-- The first octet of a character of more than one octet. -/
def leadOctet? (octet : Nat) : Option PartialChar :=
  if 0xC0 ≤ octet ∧ octet < 0xE0 then some ⟨1, octet - 0xC0, 0x80⟩
  else if 0xE0 ≤ octet ∧ octet < 0xF0 then some ⟨2, octet - 0xE0, 0x800⟩
  else if 0xF0 ≤ octet ∧ octet < 0xF8 then some ⟨3, octet - 0xF0, 0x10000⟩
  else none

/-- The characters of a text and the octets of its escapes. -/
def escapedOctets : Text → Option (List (Char ⊕ Nat))
  | [] => some []
  | c :: rest =>
      if c ≠ '%' then (escapedOctets rest).map (.inl c :: ·)
      else match rest with
        | a :: b :: rest => do
            let octet ← hexOctet? a b
            (escapedOctets rest).map (.inr octet :: ·)
        | _ => none

/-- Read an octet between two characters or in the middle of one. -/
def decodeOctet (octet : Nat) : Option PartialChar → Option (PartialChar ⊕ Char)
  | none =>
      if octet < 0x80 then some (.inr (Char.ofNat octet))
      else (leadOctet? octet).map .inl
  | some char =>
      let value := char.value * 64 + (octet - 0x80)
      if octet < 0x80 ∨ 0xC0 ≤ octet then none
      else if 1 < char.missing then some (.inl ⟨char.missing - 1, value, char.least⟩)
      else if char.least ≤ value ∧ value.isValidChar then some (.inr (Char.ofNat value))
      else none

/-- Decode octets as UTF-8, from between two characters or from the middle of one. -/
def decodeOctets : Option PartialChar → List (Char ⊕ Nat) → Option Text
  | pending, [] => if pending = none then some [] else none
  | pending, .inl c :: rest =>
      if pending = none then (decodeOctets none rest).map (c :: ·) else none
  | pending, .inr octet :: rest => do
      match ← decodeOctet octet pending with
      | .inl char => decodeOctets (some char) rest
      | .inr c => (decodeOctets none rest).map (c :: ·)

/-- `decodeURIComponent`: the escapes are octets of UTF-8; `none` is a `URIError`. -/
def decodeURIComponent (text : Text) : Option Text := do
  decodeOctets none (← escapedOctets text)


/-! ### Storage keys -/

/-- Storage key of `rest` inside the folder of a site share, or `none` when it is not a
path the share may serve. -/
def siteObjectKey (share : ShareRow) (rest : Text) : Option Text :=
  if share.kind ≠ .site then none
  else match decodeURIComponent rest with
    | none => none
    | some decoded =>
        if KeyInsideDrive share.path ∧ KeyInsideDrive decoded then
          let relative := decoded.dropWhile (· = '/')
          some (getS3Key share.orgId share.driveId (normalizePrefix share.path ++ relative))
        else none

/-- `INDEX`. -/
def indexName : Text := "index.html".toList

/-- A read of the storage. -/
inductive SiteRead where
  /-- `headObject` and `getObject`. -/
  | object (key : Text)
  /-- `listObjects`, of the objects directly below the prefix. -/
  | listing (listPrefix : Text)
  deriving DecidableEq, Repr

/-- What the site route reads for the rest of a request path; without an object at the key
it looks for the pages of the folder. -/
def siteReads (share : ShareRow) (rest : Text) (missing : Bool) : List SiteRead :=
  let wantsIndex : Bool := rest = [] ∨ rest.getLast? = some '/'
  match siteObjectKey share (if wantsIndex then rest ++ indexName else rest) with
  | none => []
  | some key =>
      .object key ::
        if missing = false then []
        else if wantsIndex then [.listing (key.take (key.length - indexName.length))]
        else match siteObjectKey share (rest ++ '/' :: indexName) with
          | none => []
          | some indexKey =>
              [.listing (indexKey.take (indexKey.length - indexName.length))]

/-- The key prefix of the drive of a share. -/
def ShareRow.drivePrefix (share : ShareRow) : Text :=
  share.orgId ++ "/drives/".toList ++ share.driveId ++ ['/']

/-- The folder of a share and `/`; nothing for the root of the drive. -/
def ShareRow.folder (share : ShareRow) : Text :=
  stripLeadingSlash (normalizePrefix share.path)

/-- A key in the drive of a share: after the prefix of the drive there is no dot segment
and no NUL, and the key has a NUL only if the id of the org or the drive has. -/
def ShareRow.InDrive (share : ShareRow) (key : Text) : Prop :=
  ∃ tail, key = share.drivePrefix ++ tail ∧ KeyInsideDrive tail ∧
    ('\x00' ∈ key → '\x00' ∈ share.orgId ∨ '\x00' ∈ share.driveId)

/-- A key in the folder of a share. -/
def ShareRow.InFolder (share : ShareRow) (key : Text) : Prop :=
  share.InDrive key ∧ share.drivePrefix ++ share.folder <+: key

/-- The keys of a storage read lie in the folder of a share. -/
def SiteRead.InFolder (share : ShareRow) : SiteRead → Prop
  | .object key => share.InFolder key
  | .listing listPrefix => share.InFolder listPrefix

/-! ### Dot segments -/

theorem segments_append_slash (x y : Text) :
  segments (x ++ '/' :: y) = segments x ++ segments y
  := by
  unfold segments
  rw [List.splitOnP_append_cons _ _ (by decide)]

theorem keyInsideDrive_nil :
  KeyInsideDrive []
  := by
  decide

theorem keyInsideDrive_append_slash {x y : Text} :
  KeyInsideDrive (x ++ '/' :: y) ↔ KeyInsideDrive x ∧ KeyInsideDrive y
  := by
  unfold KeyInsideDrive
  rw [segments_append_slash]
  simp only [List.mem_append, List.mem_cons, not_or]
  constructor
  · rintro ⟨⟨hx, -, hy⟩, hs⟩
    exact ⟨⟨hx, fun s h => hs s (.inl h)⟩, hy, fun s h => hs s (.inr h)⟩
  · rintro ⟨⟨hx, hxs⟩, hy, hys⟩
    exact ⟨⟨hx, by decide, hy⟩, fun s h => h.elim (hxs s) (hys s)⟩

theorem keyInsideDrive_slash_cons {y : Text} :
  KeyInsideDrive ('/' :: y) ↔ KeyInsideDrive y
  := by
  have h := @keyInsideDrive_append_slash [] y
  rwa [List.nil_append, and_iff_right keyInsideDrive_nil] at h

/-- Trimming slashes on the left keeps a path inside its drive. -/
theorem KeyInsideDrive.dropWhile {x : Text} (h : KeyInsideDrive x) :
  KeyInsideDrive (x.dropWhile (· = '/'))
  := by
  induction x with
  | nil => exact h
  | cons c x ih =>
      rw [List.dropWhile_cons]
      split
      · rename_i hc
        rw [of_decide_eq_true hc, keyInsideDrive_slash_cons] at h
        exact ih h
      · exact h

theorem KeyInsideDrive.stripLeadingSlash {x : Text} (h : KeyInsideDrive x) :
  KeyInsideDrive (stripLeadingSlash x)
  := by
  unfold AgentFs.stripLeadingSlash
  split
  · rename_i hhead
    cases x with
    | nil => cases hhead
    | cons c x =>
        cases hhead
        exact keyInsideDrive_slash_cons.mp h
  · exact h

/-- The folder of a path without its leading slash. -/
theorem stripLeadingSlash_normalizePrefix (path : Text) :
  stripLeadingSlash (normalizePrefix path) =
    if stripLeadingSlash path = [] ∨ (stripLeadingSlash path).getLast? = some '/' then
      stripLeadingSlash path
    else stripLeadingSlash path ++ ['/']
  := by
  have hcons (q : Text) : stripLeadingSlash (normalizePrefix ('/' :: q)) =
      if q = [] ∨ q.getLast? = some '/' then q else q ++ ['/'] := by
    cases q with
    | nil => rfl
    | cons c q =>
        unfold normalizePrefix stripLeadingSlash
        simp only [List.head?_cons, if_true, reduceCtorEq, false_or, List.getLast?_cons_cons]
        split
        · rfl
        · rfl
  cases path with
  | nil => rfl
  | cons c q =>
      by_cases hc : c = '/'
      · rw [hc, hcons]
        rfl
      · have hstrip : stripLeadingSlash (c :: q) = c :: q := by
          simp [stripLeadingSlash, hc]
        have hnorm : normalizePrefix (c :: q) = normalizePrefix ('/' :: c :: q) := by
          simp [normalizePrefix, hc]
        rw [hstrip, hnorm, hcons]

/-- What is reached from the folder of a path inside its drive is inside the drive. -/
theorem KeyInsideDrive.folder_append {path rest : Text} (h : KeyInsideDrive path)
    (hrest : KeyInsideDrive rest) :
  KeyInsideDrive (AgentFs.stripLeadingSlash (normalizePrefix path) ++ rest)
  := by
  have hstem := h.stripLeadingSlash
  rw [stripLeadingSlash_normalizePrefix]
  generalize AgentFs.stripLeadingSlash path = stem at hstem
  split
  · rename_i hends
    cases hends with
    | inl hnil =>
        rw [hnil]
        exact hrest
    | inr hlast =>
        obtain ⟨init, rfl⟩ := List.getLast?_eq_some_iff.mp hlast
        rw [List.append_assoc, List.cons_append, List.nil_append]
        exact keyInsideDrive_append_slash.mpr ⟨(keyInsideDrive_append_slash.mp hstem).1, hrest⟩
  · rw [List.append_assoc, List.cons_append, List.nil_append]
    exact keyInsideDrive_append_slash.mpr ⟨hstem, hrest⟩

/-! ### Decoding up to a slash -/

theorem escapedOctets_cons {c : Char} (hc : c ≠ '%') (rest : Text) :
  escapedOctets (c :: rest) = (escapedOctets rest).map (.inl c :: ·)
  := by
  conv_lhs => unfold escapedOctets
  rw [if_pos hc]

theorem escapedOctets_escape {c : Char} (hc : ¬ c ≠ '%') (a b : Char) (rest : Text) :
  escapedOctets (c :: a :: b :: rest) = (hexOctet? a b).bind fun octet =>
    (escapedOctets rest).map (.inr octet :: ·)
  := by
  conv_lhs => unfold escapedOctets
  rw [if_neg hc]
  rfl

/-- An escape is not cut short by a slash. -/
theorem hexOctet?_slash (a : Char) :
  hexOctet? a '/' = none ∧ hexOctet? '/' a = none
  := by
  unfold hexOctet?
  constructor
  · cases hexDigit? a with
    | none => rfl
    | some n => rfl
  · rfl

theorem escapedOctets_append_slash {x y : Text} {l : List (Char ⊕ Nat)}
    (h : escapedOctets (x ++ '/' :: y) = some l) :
  ∃ l₁ l₂, escapedOctets y = some l₂ ∧ l = l₁ ++ .inl '/' :: l₂
  := by
  induction x using escapedOctets.induct generalizing l with
  | case1 =>
      rw [List.nil_append, escapedOctets_cons (by decide)] at h
      obtain ⟨l₂, hy, rfl⟩ := Option.map_eq_some_iff.mp h
      exact ⟨[], l₂, hy, rfl⟩
  | case2 c x hc ih =>
      rw [List.cons_append, escapedOctets_cons hc] at h
      obtain ⟨l', hl', rfl⟩ := Option.map_eq_some_iff.mp h
      obtain ⟨l₁, l₂, hy, rfl⟩ := ih hl'
      exact ⟨.inl c :: l₁, l₂, hy, rfl⟩
  | case3 c hc a b x ih =>
      rw [List.cons_append, List.cons_append, List.cons_append, escapedOctets_escape hc] at h
      obtain ⟨octet, -, h⟩ := Option.bind_eq_some_iff.mp h
      obtain ⟨l', hl', rfl⟩ := Option.map_eq_some_iff.mp h
      obtain ⟨l₁, l₂, hy, rfl⟩ := ih hl'
      exact ⟨.inr octet :: l₁, l₂, hy, rfl⟩
  | case4 c x hc hshort =>
      cases x with
      | nil =>
          cases y with
          | nil => simp [escapedOctets, hc] at h
          | cons b y =>
              rw [List.cons_append, List.nil_append, escapedOctets_escape hc,
                (hexOctet?_slash b).2] at h
              cases h
      | cons a x =>
          cases x with
          | nil =>
              rw [List.cons_append, List.cons_append, List.nil_append, escapedOctets_escape hc,
                (hexOctet?_slash a).1] at h
              cases h
          | cons b x => exact absurd rfl (hshort a b x)

theorem decodeOctets_append_slash {pending : Option PartialChar} {l₁ l₂ : List (Char ⊕ Nat)}
    {text : Text} (h : decodeOctets pending (l₁ ++ .inl '/' :: l₂) = some text) :
  ∃ x y, decodeOctets none l₂ = some y ∧ text = x ++ '/' :: y
  := by
  induction l₁ generalizing pending text with
  | nil =>
      rw [List.nil_append, decodeOctets] at h
      split at h
      · obtain ⟨y, hy, rfl⟩ := Option.map_eq_some_iff.mp h
        exact ⟨[], y, hy, rfl⟩
      · cases h
  | cons octet l₁ ih =>
      cases octet with
      | inl c =>
          rw [List.cons_append, decodeOctets] at h
          split at h
          · obtain ⟨text', htext', rfl⟩ := Option.map_eq_some_iff.mp h
            obtain ⟨x, y, hy, rfl⟩ := ih htext'
            exact ⟨c :: x, y, hy, rfl⟩
          · cases h
      | inr octet =>
          rw [List.cons_append, decodeOctets] at h
          obtain ⟨read, -, h⟩ := Option.bind_eq_some_iff.mp h
          cases read with
          | inl char => exact ih h
          | inr c =>
              obtain ⟨text', htext', rfl⟩ := Option.map_eq_some_iff.mp h
              obtain ⟨x, y, hy, rfl⟩ := ih htext'
              exact ⟨c :: x, y, hy, rfl⟩

/-- A slash stands for itself, and what follows it is decoded on its own. -/
theorem decodeURIComponent_append_slash {x y text : Text}
    (h : decodeURIComponent (x ++ '/' :: y) = some text) :
  ∃ x' y', decodeURIComponent y = some y' ∧ text = x' ++ '/' :: y'
  := by
  obtain ⟨l, hl, htext⟩ := Option.bind_eq_some_iff.mp h
  obtain ⟨l₁, l₂, hy, rfl⟩ := escapedOctets_append_slash hl
  obtain ⟨x', y', hy', rfl⟩ := decodeOctets_append_slash htext
  refine ⟨x', y', ?_, rfl⟩
  unfold decodeURIComponent
  rw [hy]
  exact hy'

theorem decodeURIComponent_indexName :
  decodeURIComponent indexName = some indexName
  := by
  decide +kernel

/-! ### Containment -/

section

variable {share : ShareRow}

theorem nul_mem_iff (share : ShareRow) {tail : Text} (h : KeyInsideDrive tail) :
  '\x00' ∈ share.drivePrefix ++ tail ↔ '\x00' ∈ share.orgId ∨ '\x00' ∈ share.driveId
  := by
  have htail := h.1
  simp [ShareRow.drivePrefix, htail]

theorem ShareRow.inDrive {tail : Text} (h : KeyInsideDrive tail) :
  share.InDrive (share.drivePrefix ++ tail)
  := ⟨tail, rfl, h, (nul_mem_iff share h).mp⟩

theorem stripLeadingSlash_append {x : Text} (hx : x.head? = some '/') (y : Text) :
  stripLeadingSlash (x ++ y) = stripLeadingSlash x ++ y
  := by
  cases x with
  | nil => cases hx
  | cons c x =>
      cases hx
      rfl

/-- What a site key is made of. -/
theorem siteObjectKey_cases {rest key : Text} (h : siteObjectKey share rest = some key) :
  ∃ decoded, decodeURIComponent rest = some decoded ∧ KeyInsideDrive share.path ∧
    KeyInsideDrive decoded ∧
    key = share.drivePrefix ++ (share.folder ++ decoded.dropWhile (· = '/'))
  := by
  unfold siteObjectKey at h
  split at h
  · cases h
  · split at h
    · cases h
    · rename_i decoded hdecoded
      split at h
      · rename_i hinside
        refine ⟨decoded, hdecoded, hinside.1, hinside.2, ?_⟩
        have hstrip := stripLeadingSlash_append (head?_normalizePrefix share.path)
          (decoded.dropWhile (· = '/'))
        rw [← Option.some.inj h]
        unfold getS3Key
        rw [hstrip]
        rfl
      · cases h

theorem ShareRow.inFolder {rest : Text} (hpath : KeyInsideDrive share.path)
    (hrest : KeyInsideDrive rest) :
  share.InFolder (share.drivePrefix ++ (share.folder ++ rest))
  := by
  refine ⟨ShareRow.inDrive (hpath.folder_append hrest), ?_⟩
  rw [← List.append_assoc]
  apply List.prefix_append

theorem siteObjectKey_inFolder {rest key : Text} (h : siteObjectKey share rest = some key) :
  share.InFolder key
  := by
  obtain ⟨decoded, -, hpath, hdecoded, rfl⟩ := siteObjectKey_cases h
  exact ShareRow.inFolder hpath hdecoded.dropWhile

/-- A key below the folder has its place at or below the place of the folder. -/
theorem locate_folder_prefix (share : ShareRow) (rest : Text) :
  locate .local (share.drivePrefix ++ share.folder) <+:
    locate .local (share.drivePrefix ++ (share.folder ++ rest))
  := by
  obtain ⟨x, hx⟩ : ∃ x, share.drivePrefix ++ share.folder = x ++ '/' :: [] := by
    unfold ShareRow.folder
    rw [stripLeadingSlash_normalizePrefix]
    split
    · rename_i hends
      cases hends with
      | inl hnil =>
          rw [hnil, List.append_nil]
          exact ⟨_, rfl⟩
      | inr hlast =>
          obtain ⟨init, hinit⟩ := List.getLast?_eq_some_iff.mp hlast
          rw [hinit, ← List.append_assoc]
          exact ⟨_, rfl⟩
    · rw [← List.append_assoc]
      exact ⟨_, rfl⟩
  rw [← List.append_assoc, hx, List.append_assoc, List.cons_append, List.nil_append,
    locate_append_slash, locate_append_slash]
  apply List.prefix_append_right_inj _ |>.mpr
  apply List.nil_prefix

/-- The prefix of a key of an index page lies in the folder. -/
theorem siteObjectKey_index {rest key : Text} (hrest : rest = [] ∨ rest.getLast? = some '/')
    (h : siteObjectKey share (rest ++ indexName) = some key) :
  share.InFolder (key.take (key.length - indexName.length))
  := by
  obtain ⟨decoded, hdecoded, hpath, hinside, rfl⟩ := siteObjectKey_cases h
  obtain ⟨stem, rfl, hstem⟩ : ∃ stem, decoded = stem ++ indexName ∧ KeyInsideDrive stem := by
    cases hrest with
    | inl hnil =>
        rw [hnil, List.nil_append, decodeURIComponent_indexName] at hdecoded
        cases hdecoded
        exact ⟨[], rfl, keyInsideDrive_nil⟩
    | inr hlast =>
        obtain ⟨init, rfl⟩ := List.getLast?_eq_some_iff.mp hlast
        rw [List.append_assoc, List.cons_append, List.nil_append] at hdecoded
        obtain ⟨x, y, hy, rfl⟩ := decodeURIComponent_append_slash hdecoded
        rw [decodeURIComponent_indexName] at hy
        cases hy
        refine ⟨x ++ ['/'], by simp, ?_⟩
        rw [keyInsideDrive_append_slash] at hinside ⊢
        exact ⟨hinside.1, keyInsideDrive_nil⟩
  have hdrop : (stem ++ indexName).dropWhile (· = '/') =
      stem.dropWhile (· = '/') ++ indexName := by
    rw [List.dropWhile_append]
    split
    · rename_i hnil
      rw [List.isEmpty_iff.mp hnil]
      rfl
    · rfl
  rw [hdrop, ← List.append_assoc, ← List.append_assoc, List.length_append, Nat.add_sub_cancel,
    List.take_left, List.append_assoc]
  exact ShareRow.inFolder hpath hstem.dropWhile

/-- Every key that `siteObjectKey` returns lies in the folder of the share: it starts with
the prefix of the drive and the folder, and has no dot segment after the prefix of the
drive; on the local backend its place lies at or below the place of the folder.  The key
of `shareStorageKey` lies in the drive in the same way.  Whatever the rest of its path
decodes to, the site route reads and lists in the folder only. -/
theorem site_contained (share : ShareRow) :
  (∀ rest key, siteObjectKey share rest = some key →
    share.InFolder key ∧
      locate .local (share.drivePrefix ++ share.folder) <+: locate .local key) ∧
  (∀ key, shareStorageKey share = some key → share.InDrive key) ∧
  ∀ rest missing, ∀ read ∈ siteReads share rest missing, read.InFolder share
  := by
  refine ⟨?_, ?_, ?_⟩
  · intro rest key h
    refine ⟨siteObjectKey_inFolder h, ?_⟩
    obtain ⟨decoded, -, -, -, rfl⟩ := siteObjectKey_cases h
    apply locate_folder_prefix
  · intro key h
    unfold shareStorageKey at h
    split at h
    · rename_i hpath
      cases h
      exact ShareRow.inDrive hpath.stripLeadingSlash
    · cases h
  · intro rest missing read hread
    unfold siteReads at hread
    dsimp only at hread
    split at hread
    · cases hread
    · rename_i key hkey
      rw [List.mem_cons] at hread
      cases hread with
      | inl hobject =>
          rw [hobject]
          exact siteObjectKey_inFolder hkey
      | inr hlisting =>
          split at hlisting
          · cases hlisting
          · split at hlisting
            · rename_i hindex
              rw [if_pos hindex] at hkey
              rw [List.mem_singleton.mp hlisting]
              exact siteObjectKey_index (of_decide_eq_true hindex) hkey
            · split at hlisting
              · cases hlisting
              · rename_i indexKey hindexKey
                rw [List.mem_singleton.mp hlisting]
                apply @siteObjectKey_index share (rest ++ ['/'])
                · right
                  simp
                · rw [List.append_assoc]
                  exact hindexKey

end

/-- A shared folder `/site`. -/
def sampleSite : ShareRow where
  id := "share".toList
  orgId := "org".toList
  driveId := "drive".toList
  path := "/site".toList
  kind := .site
  tokenHash := []
  expiresAt := 10
  neverExpires := false
  maxViews := none
  views := 0
  lastViewedAt := none
  createdBy := "user".toList
  createdAt := 0
  revokedAt := none
  revokedBy := none

/-- A name that is encoded twice stays a plain name; one that is encoded once is refused. -/
theorem site_contained_sampleSite :
  siteObjectKey sampleSite "%252e%252e/a".toList =
      some "org/drives/drive/site/%2e%2e/a".toList ∧
    siteObjectKey sampleSite "%2e%2e/a".toList = none ∧
    sampleSite.InFolder "org/drives/drive/site/%2e%2e/a".toList
  := by
  have hkey : siteObjectKey sampleSite "%252e%252e/a".toList =
      some "org/drives/drive/site/%2e%2e/a".toList := by decide +kernel
  refine ⟨hkey, by decide +kernel, ?_⟩
  exact ((site_contained sampleSite).1 _ _ hkey).1

end AgentFs

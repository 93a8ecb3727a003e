import Mathlib.Data.Finset.Insert
import Mathlib.Data.Finset.Erase
import AgentFs.Lib.OrderedMap
import AgentFs.Paths

/-!
# The cache of drive images

`DriveImageCache` of `live/src/lib/drive-image-cache.ts`.  The cache owns object URLs, which are
shared with the images that show them, and revokes them.
-/

namespace AgentFs

/-! ### Operations -/

structure DriveImageResolution where
  orgId : Text
  driveId : Text
  path : Text
  deriving DecidableEq, Repr

structure DriveImageCacheEntry where
  url : Text
  /-- In milliseconds; none for an entry that does not expire. -/
  expiresAt : Option Int
  /-- Whether `url` is an object URL that the cache owns. -/
  objectUrl : Bool
  deriving DecidableEq, Repr

inductive CacheValue where
  | pending
  | settled (entry : DriveImageCacheEntry)
  deriving DecidableEq, Repr

/-- The URL of a settled value. -/
def CacheValue.url? : CacheValue → Option Text
  | pending => none
  | settled entry => some entry.url

/-- Whether a value is the owned object URL `url`. -/
def CacheValue.owns (url : Text) : CacheValue → Bool
  | pending => false
  | settled entry => entry.objectUrl && entry.url = url

/-- A cache; `holds` is zero for a URL that it does not have, and `revoked` are the object URLs
that were revoked, in this order. -/
structure DriveImageCache where
  entries : OrderedMap Text CacheValue
  holds : Text → Nat
  retired : Finset Text
  /-- The URLs with an idle timeout that is pending. -/
  idle : Finset Text
  revoked : List Text

namespace DriveImageCache

def new : DriveImageCache :=
  ⟨.empty, fun _ => 0, ∅, ∅, []⟩

/-- `URL.revokeObjectURL`. -/
def revoke (url : Text) (s : DriveImageCache) : DriveImageCache :=
  { s with revoked := s.revoked ++ [url] }

def cancelIdle (url : Text) (s : DriveImageCache) : DriveImageCache :=
  { s with idle := s.idle.erase url }

/-- The key whose settled entry is the owned object URL `url`. -/
def ownerKey (s : DriveImageCache) (url : Text) : Option Text :=
  (s.entries.entries.find? (fun e => e.2.owns url)).map Prod.fst

def scheduleIdle (url : Text) (s : DriveImageCache) : DriveImageCache :=
  if s.ownerKey url = none then s
  else { s.cancelIdle url with idle := insert url (s.cancelIdle url).idle }

/-- The callback of the timeout of `url`, if it is pending. -/
def timeout (url : Text) (s : DriveImageCache) : DriveImageCache :=
  if url ∈ s.idle then
    let s := { s with idle := s.idle.erase url }
    match s.ownerKey url with
    | none => s
    | some key =>
        if 0 < s.holds url then s
        else revoke url { s with entries := s.entries.delete key }
  else s

def hold (url : Text) (s : DriveImageCache) : DriveImageCache :=
  let s := s.cancelIdle url
  { s with holds := Function.update s.holds url (s.holds url + 1) }

def release (url : Text) (s : DriveImageCache) : DriveImageCache :=
  let count := s.holds url - 1
  if 0 < count then { s with holds := Function.update s.holds url count }
  else
    let s := { s with holds := Function.update s.holds url 0 }
    if url ∈ s.retired then revoke url { s with retired := s.retired.erase url }
    else s.scheduleIdle url

/-- Revokes an owned object URL that left the cache, now or when its last holder releases it. -/
def retire (previous next : Option CacheValue) (s : DriveImageCache) : DriveImageCache :=
  match previous with
  | some (.settled previous) =>
      if previous.objectUrl = false then s
      else if next.bind CacheValue.url? = some previous.url then s
      else
        let s := s.cancelIdle previous.url
        if 0 < s.holds previous.url then
          { s with retired := insert previous.url s.retired }
        else s.revoke previous.url
  | _ => s

def key (clientId : Text) (res : DriveImageResolution) : Text :=
  clientId ++ "::".toList ++ res.orgId ++ ['/'] ++ res.driveId ++ ['/'] ++ res.path

def get (clientId : Text) (res : DriveImageResolution) (s : DriveImageCache) :
    Option CacheValue :=
  s.entries.get (key clientId res)

def minFreshMs : Int := 5 * 60 * 1000

/-- The cached entry, if it is settled and has enough life left. -/
def getFresh (clientId : Text) (res : DriveImageResolution) (now : Int) (s : DriveImageCache) :
    Option DriveImageCacheEntry :=
  match s.get clientId res with
  | some (.settled cached) =>
      if ∀ expiresAt ∈ cached.expiresAt, expiresAt - now > minFreshMs then some cached else none
  | _ => none

def setKey (key : Text) (value : CacheValue) (s : DriveImageCache) : DriveImageCache :=
  let s := s.retire (s.entries.get key) (some value)
  let s := { s with entries := s.entries.set key value }
  match value with
  | .pending => s
  | .settled entry => if 0 < s.holds entry.url then s else s.scheduleIdle entry.url

def set (clientId : Text) (res : DriveImageResolution) (value : CacheValue)
    (s : DriveImageCache) : DriveImageCache :=
  s.setKey (key clientId res) value

def deleteKey (key : Text) (s : DriveImageCache) : DriveImageCache :=
  let s := s.retire (s.entries.get key) none
  { s with entries := s.entries.delete key }

def delete (clientId : Text) (res : DriveImageResolution) (s : DriveImageCache) :
    DriveImageCache :=
  s.deleteKey (key clientId res)

end DriveImageCache

/-! ### Runs -/

/-- What can happen to a cache. -/
inductive CacheEvent where
  | set (clientId : Text) (res : DriveImageResolution) (value : CacheValue)
  | delete (clientId : Text) (res : DriveImageResolution)
  | hold (url : Text)
  | release (url : Text)
  /-- The time of an idle timeout has come. -/
  | timeout (url : Text)
  deriving DecidableEq, Repr

namespace DriveImageCache

def step (s : DriveImageCache) : CacheEvent → DriveImageCache
  | .set clientId res value => s.set clientId res value
  | .delete clientId res => s.delete clientId res
  | .hold url => s.hold url
  | .release url => s.release url
  | .timeout url => s.timeout url

def run (events : List CacheEvent) : DriveImageCache :=
  events.foldl step new

/-- An owned object URL is a cached entry. -/
def Caches (s : DriveImageCache) (url : Text) : Prop :=
  ∃ e ∈ s.entries.entries, e.2.owns url = true

end DriveImageCache

/-- The settled entry that an event passes to `set`. -/
def CacheEvent.settled? : CacheEvent → Option DriveImageCacheEntry
  | set _ _ (.settled entry) => some entry
  | _ => none

/-- The settled entries that were passed to `set`. -/
def settledEntries (events : List CacheEvent) : List DriveImageCacheEntry :=
  events.filterMap CacheEvent.settled?

/-- Each owned object URL is passed to `set` once. -/
def SetOnce (entries : List DriveImageCacheEntry) : Prop :=
  entries.Pairwise (fun a b => a.objectUrl = true ∨ b.objectUrl = true → a.url ≠ b.url)

/-- An owned object URL was passed to `set`. -/
def Minted (entries : List DriveImageCacheEntry) (url : Text) : Prop :=
  ∃ entry ∈ entries, entry.objectUrl = true ∧ entry.url = url

/-- The number of holders of a URL that have not released it. -/
def holders (events : List CacheEvent) (url : Text) : Nat :=
  events.count (.hold url) - events.count (.release url)

/-- A URL is released only as often as it is held. -/
def ReleasedAsHeld (events : List CacheEvent) : Prop :=
  ∀ i url, events[i]? = some (.release url) → 0 < holders (events.take i) url

theorem CacheValue.owns_iff {url : Text} {value : CacheValue} :
  value.owns url = true ↔
    ∃ entry, value = .settled entry ∧ entry.objectUrl = true ∧ entry.url = url
  := by
  cases value with
  | pending => simp [CacheValue.owns]
  | settled entry => simp [CacheValue.owns]

namespace DriveImageCache

/-- Where the owned object URLs are that were passed to a cache. -/
structure Owned (passed : List DriveImageCacheEntry) (s : DriveImageCache) : Prop where
  given : ∀ e ∈ s.entries.entries, ∀ entry, e.2 = .settled entry → entry ∈ passed
  /-- An owned object URL is cached under one key. -/
  single : ∀ e ∈ s.entries.entries, ∀ e' ∈ s.entries.entries, ∀ url, e.2.owns url = true →
    e'.2.owns url = true → e = e'
  retired : ∀ url ∈ s.retired,
    Minted passed url ∧ 0 < s.holds url ∧ ¬ s.Caches url ∧ url ∉ s.revoked
  revoked : ∀ url ∈ s.revoked, Minted passed url ∧ ¬ s.Caches url
  nodup : s.revoked.Nodup
  left : ∀ url, Minted passed url → s.Caches url ∨ url ∈ s.retired ∨ url ∈ s.revoked

/-- The invariant of a cache. -/
structure Inv (passed : List DriveImageCacheEntry) (s : DriveImageCache) : Prop
    extends Owned passed s where
  idle : ∀ url, url ∈ s.idle ↔ s.Caches url ∧ s.holds url = 0

theorem inv_new :
  Inv [] new
  := by
  have hcaches : ∀ url, ¬ new.Caches url := fun url ⟨e, he, _⟩ => nomatch he
  constructor
  · refine ⟨nofun, nofun, fun url h => ?_, nofun, List.nodup_nil, ?_⟩
    · exact absurd h (Finset.notMem_empty url)
    · rintro url ⟨entry, hentry, -⟩
      cases hentry
  · exact fun url => iff_of_false (Finset.notMem_empty url) (fun h => hcaches url h.1)

theorem Owned.minted {passed : List DriveImageCacheEntry} {s : DriveImageCache}
    (h : Owned passed s) {url : Text} (hcaches : s.Caches url) :
  Minted passed url
  := by
  obtain ⟨e, he, howns⟩ := hcaches
  obtain ⟨entry, hentry, howned⟩ := CacheValue.owns_iff.mp howns
  exact ⟨entry, h.given e he entry hentry, howned⟩

theorem ownerKey_eq_none_iff {s : DriveImageCache} {url : Text} :
  s.ownerKey url = none ↔ ¬ s.Caches url
  := by
  rw [ownerKey, Option.map_eq_none_iff, List.find?_eq_none, Caches]
  simp

theorem mem_of_ownerKey {s : DriveImageCache} {url key : Text} (h : s.ownerKey url = some key) :
  ∃ entry, (key, CacheValue.settled entry) ∈ s.entries.entries ∧ entry.objectUrl = true ∧
    entry.url = url
  := by
  obtain ⟨⟨key', value⟩, hfind, rfl⟩ := Option.map_eq_some_iff.mp h
  have howns : value.owns url = true := List.find?_some
    (p := fun e : Text × CacheValue => e.2.owns url) hfind
  obtain ⟨entry, rfl, howned⟩ := CacheValue.owns_iff.mp howns
  exact ⟨entry, List.mem_of_find?_eq_some hfind, howned⟩

/-! ### Idle timeouts -/

theorem scheduleIdle_eq (url : Text) (s : DriveImageCache) :
  (s.Caches url ∧ s.scheduleIdle url = { s with idle := insert url s.idle }) ∨
  (¬ s.Caches url ∧ s.scheduleIdle url = s)
  := by
  rw [scheduleIdle]
  by_cases h : s.Caches url
  · left
    rw [if_neg (mt ownerKey_eq_none_iff.mp (not_not.mpr h))]
    have hinsert : insert url (s.idle.erase url) = insert url s.idle := by
      ext other
      by_cases heq : other = url
      · simp [heq]
      · simp [heq]
    refine ⟨h, ?_⟩
    simp only [cancelIdle, hinsert]
  · right
    rw [if_pos (ownerKey_eq_none_iff.mpr h)]
    exact ⟨h, rfl⟩

/-- A URL without a holder gets its timeout, if the cache owns it. -/
theorem Owned.scheduleIdle {passed : List DriveImageCacheEntry} {s : DriveImageCache}
    (h : Owned passed s) {url : Text} (hfree : s.holds url = 0)
    (hidle : ∀ other, other ∈ s.idle → s.Caches other ∧ s.holds other = 0)
    (hothers : ∀ other, other ≠ url → s.Caches other → s.holds other = 0 → other ∈ s.idle) :
  Inv passed (s.scheduleIdle url)
  := by
  obtain ⟨hcaches, heq⟩ | ⟨hcaches, heq⟩ := scheduleIdle_eq url s
  · rw [heq]
    refine ⟨⟨h.given, h.single, h.retired, h.revoked, h.nodup, h.left⟩, fun other => ?_⟩
    rw [Finset.mem_insert]
    constructor
    · rintro (rfl | hother)
      · exact ⟨hcaches, hfree⟩
      · exact hidle other hother
    · rintro ⟨hother, hholds⟩
      by_cases hne : other = url
      · exact .inl hne
      · exact .inr (hothers other hne hother hholds)
  · rw [heq]
    refine ⟨h, fun other => ⟨hidle other, ?_⟩⟩
    rintro ⟨hother, hholds⟩
    apply hothers other _ hother hholds
    rintro rfl
    exact hcaches hother

theorem Inv.hold {passed : List DriveImageCacheEntry} {s : DriveImageCache} (h : Inv passed s)
    (url : Text) :
  Inv passed (s.hold url)
  := by
  have hholds : ∀ other, s.holds other ≤ (s.hold url).holds other := by
    intro other
    by_cases heq : other = url
    · subst heq
      simp [DriveImageCache.hold, cancelIdle]
    · simp [DriveImageCache.hold, cancelIdle, heq]
  constructor
  · refine ⟨h.given, h.single, fun other hother => ?_, h.revoked, h.nodup, h.left⟩
    obtain ⟨hminted, hheld, hrest⟩ := h.retired other hother
    exact ⟨hminted, hheld.trans_le (hholds other), hrest⟩
  · intro other
    have hidle := h.idle other
    by_cases heq : other = url
    · subst heq
      simp [DriveImageCache.hold, cancelIdle]
    · simp only [DriveImageCache.hold, cancelIdle, Finset.mem_erase, ne_eq, heq, not_false_eq_true,
        true_and, Function.update_of_ne]
      exact hidle

/-- A URL that is not retired may have any number of holders. -/
theorem Owned.setHolds {passed : List DriveImageCacheEntry} {s : DriveImageCache}
    (h : Owned passed s) {url : Text} {count : Nat} (hcount : url ∈ s.retired → 0 < count) :
  Owned passed { s with holds := Function.update s.holds url count }
  := by
  refine ⟨h.given, h.single, fun other hother => ?_, h.revoked, h.nodup, h.left⟩
  obtain ⟨hminted, hheld, hrest⟩ := h.retired other hother
  refine ⟨hminted, ?_, hrest⟩
  by_cases heq : other = url
  · subst heq
    simpa using hcount hother
  · simpa [heq] using hheld

/-- What an operation that revokes `url` does. -/
structure Revokes (url : Text) (s s' : DriveImageCache) : Prop where
  entries : ∀ e ∈ s'.entries.entries, e ∈ s.entries.entries
  kept : ∀ other, other ≠ url → s.Caches other → s'.Caches other
  gone : ¬ s'.Caches url
  holds : ∀ other, other ≠ url → s'.holds other = s.holds other
  retired : s'.retired = s.retired.erase url
  idle : s'.idle = s.idle.erase url
  revoked : s'.revoked = s.revoked ++ [url]

theorem Revokes.inv {url : Text} {s s' : DriveImageCache} (hrevokes : Revokes url s s')
    {passed : List DriveImageCacheEntry} (h : Inv passed s) (hminted : Minted passed url)
    (hnew : url ∉ s.revoked) :
  Inv passed s'
  := by
  have hcaches : ∀ other, s'.Caches other ↔ s.Caches other ∧ other ≠ url := by
    intro other
    constructor
    · intro hother
      refine ⟨?_, ?_⟩
      · obtain ⟨e, he, howns⟩ := hother
        exact ⟨e, hrevokes.entries e he, howns⟩
      · rintro rfl
        exact hrevokes.gone hother
    · exact fun hother => hrevokes.kept other hother.2 hother.1
  constructor
  · constructor
    · exact fun e he => h.given e (hrevokes.entries e he)
    · exact fun e he e' he' => h.single e (hrevokes.entries e he) e' (hrevokes.entries e' he')
    · intro other hother
      rw [hrevokes.retired, Finset.mem_erase] at hother
      obtain ⟨hother_minted, hheld, hother_caches, hother_revoked⟩ := h.retired other hother.2
      rw [hrevokes.holds other hother.1, hrevokes.revoked, hcaches]
      refine ⟨hother_minted, hheld, fun hmem => hother_caches hmem.1, ?_⟩
      simp [hother_revoked, hother.1]
    · intro other hother
      rw [hrevokes.revoked, List.mem_append, List.mem_singleton] at hother
      obtain hother | rfl := hother
      · obtain ⟨hother_minted, hother_caches⟩ := h.revoked other hother
        exact ⟨hother_minted, fun hmem => hother_caches ((hcaches other).mp hmem).1⟩
      · exact ⟨hminted, hrevokes.gone⟩
    · rw [hrevokes.revoked, ← List.concat_eq_append]
      exact h.nodup.concat hnew
    · intro other hother
      rw [hrevokes.revoked, hrevokes.retired, hcaches, Finset.mem_erase, List.mem_append,
        List.mem_singleton]
      by_cases heq : other = url
      · exact .inr (.inr (.inr heq))
      · obtain hleft | hleft | hleft := h.left other hother
        · exact .inl ⟨hleft, heq⟩
        · exact .inr (.inl ⟨heq, hleft⟩)
        · exact .inr (.inr (.inl hleft))
  · intro other
    rw [hrevokes.idle, Finset.mem_erase, h.idle, hcaches]
    by_cases heq : other = url
    · simp [heq]
    · simp [heq, hrevokes.holds other heq]

theorem Inv.release {passed : List DriveImageCacheEntry} {s : DriveImageCache} (h : Inv passed s)
    (url : Text) :
  Inv passed (s.release url)
  := by
  rw [DriveImageCache.release]
  by_cases hcount : 0 < s.holds url - 1
  · rw [if_pos hcount]
    refine ⟨h.toOwned.setHolds (fun _ => hcount), fun other => (h.idle other).trans ?_⟩
    apply and_congr_right
    intro _
    by_cases heq : other = url
    · subst heq
      simp only [Function.update_self]
      omega
    · simp [heq]
  · rw [if_neg hcount]
    by_cases hretired : url ∈ s.retired
    · obtain ⟨hminted, -, hcaches, hrevoked⟩ := h.retired url hretired
      have hidle : url ∉ s.idle := fun hidle => hcaches ((h.idle url).mp hidle).1
      rw [if_pos hretired]
      refine Revokes.inv ?_ h hminted hrevoked
      exact ⟨fun e he => he, fun other _ hother => hother, hcaches,
        fun other hne => Function.update_of_ne hne _ _, rfl,
        (Finset.erase_eq_of_notMem hidle).symm, rfl⟩
    · simp only [if_neg hretired]
      apply Owned.scheduleIdle (h.toOwned.setHolds (fun hmem => absurd hmem hretired))
      · simp
      · intro other hother
        obtain ⟨hcaches, hholds⟩ := (h.idle other).mp hother
        refine ⟨hcaches, ?_⟩
        by_cases heq : other = url
        · simp [heq]
        · simpa [heq] using hholds
      · intro other hne hcaches hholds
        exact (h.idle other).mpr ⟨hcaches, by simpa [hne] using hholds⟩

/-! ### Entries that leave the cache -/

/-- What becomes of the value of a key that is retired. -/
theorem retire_cases (s : DriveImageCache) (previous next : Option CacheValue) :
  ((s.retire previous next = s) ∧ (∀ entry, previous = some (.settled entry) →
    entry.objectUrl = false ∨ next.bind CacheValue.url? = some entry.url)) ∨
  ∃ entry, previous = some (.settled entry) ∧ entry.objectUrl = true ∧
    ((0 < s.holds entry.url ∧ s.retire previous next =
        { s.cancelIdle entry.url with retired := insert entry.url s.retired }) ∨
      (s.holds entry.url = 0 ∧ s.retire previous next = (s.cancelIdle entry.url).revoke entry.url))
  := by
  cases previous with
  | none => exact .inl ⟨rfl, nofun⟩
  | some value =>
    cases value with
    | pending => exact .inl ⟨rfl, nofun⟩
    | settled entry =>
      rw [retire]
      by_cases howned : entry.objectUrl = false
      · rw [if_pos howned]
        refine .inl ⟨rfl, ?_⟩
        rintro other ⟨⟩
        exact .inl howned
      · rw [if_neg howned]
        by_cases hnext : next.bind CacheValue.url? = some entry.url
        · rw [if_pos hnext]
          refine .inl ⟨rfl, ?_⟩
          rintro other ⟨⟩
          exact .inr hnext
        · rw [if_neg hnext]
          refine .inr ⟨entry, rfl, by simpa using howned, ?_⟩
          by_cases hheld : 0 < s.holds entry.url
          · exact .inl ⟨hheld, if_pos hheld⟩
          · exact .inr ⟨Nat.eq_zero_of_not_pos hheld, if_neg hheld⟩

/-- The state of a cache from which the value of a key was taken. -/
def without (key : Text) (s : DriveImageCache) : DriveImageCache :=
  { s with entries := s.entries.delete key }

theorem caches_without_iff {s : DriveImageCache} {key url : Text} :
  (s.without key).Caches url ↔ ∃ e ∈ s.entries.entries, e.1 ≠ key ∧ e.2.owns url = true
  := by
  simp only [Caches, DriveImageCache.without, OrderedMap.mem_delete, and_assoc]

/-- Taking an owned object URL away takes away no other one. -/
theorem Owned.caches_without {passed : List DriveImageCacheEntry} {s : DriveImageCache}
    (h : Owned passed s) {key : Text} {entry : DriveImageCacheEntry}
    (hget : s.entries.get key = some (.settled entry)) (howned : entry.objectUrl = true)
    (url : Text) :
  (s.without key).Caches url ↔ s.Caches url ∧ url ≠ entry.url
  := by
  have hmem := OrderedMap.get_eq_some_iff.mp hget
  have howns : ∀ other, (CacheValue.settled entry).owns other = true ↔ other = entry.url := by
    intro other
    rw [CacheValue.owns_iff]
    constructor
    · rintro ⟨_, ⟨⟩, -, rfl⟩
      rfl
    · rintro rfl
      exact ⟨entry, rfl, howned, rfl⟩
  rw [caches_without_iff]
  constructor
  · rintro ⟨e, he, hkey, heq⟩
    refine ⟨⟨e, he, heq⟩, ?_⟩
    rintro rfl
    rw [h.single e he _ hmem entry.url heq ((howns _).mpr rfl)] at hkey
    exact hkey rfl
  · rintro ⟨⟨e, he, heq⟩, hne⟩
    refine ⟨e, he, ?_, heq⟩
    rintro rfl
    have hvalue := s.entries.eq_of_mem (k := e.1) he hmem
    rw [hvalue, howns] at heq
    exact hne heq

theorem Inv.without {passed : List DriveImageCacheEntry} {s : DriveImageCache} (h : Inv passed s)
    {key : Text} {next : Option CacheValue}
    (hnext : ∀ entry, s.entries.get key = some (.settled entry) → entry.objectUrl = true →
      next.bind CacheValue.url? ≠ some entry.url) :
  Inv passed ((s.retire (s.entries.get key) next).without key)
  := by
  have hsub : ∀ e ∈ (s.entries.delete key).entries, e ∈ s.entries.entries :=
    fun e he => (OrderedMap.mem_delete.mp he).1
  obtain ⟨heq, hnone⟩ | ⟨entry, hget, howned, ⟨hheld, heq⟩ | ⟨hfree, heq⟩⟩ :=
    retire_cases s (s.entries.get key) next
  · have hcaches : ∀ url, (s.without key).Caches url ↔ s.Caches url := by
      intro url
      rw [caches_without_iff]
      constructor
      · exact fun ⟨e, he, _, howns⟩ => ⟨e, he, howns⟩
      · rintro ⟨e, he, howns⟩
        refine ⟨e, he, ?_, howns⟩
        rintro rfl
        obtain ⟨entry, hentry, howned, rfl⟩ := CacheValue.owns_iff.mp howns
        have hget : s.entries.get e.1 = some (.settled entry) := by
          rw [OrderedMap.get_eq_some_iff, ← hentry]
          exact he
        obtain hunowned | hsame := hnone entry hget
        · rw [howned] at hunowned
          cases hunowned
        · exact hnext entry hget howned hsame
    rw [heq]
    constructor
    · refine ⟨fun e he => h.given e (hsub e he),
        fun e he e' he' => h.single e (hsub e he) e' (hsub e' he'), ?_, ?_, h.nodup, ?_⟩
      · intro url hurl
        rw [hcaches]
        exact h.retired url hurl
      · intro url hurl
        rw [hcaches]
        exact h.revoked url hurl
      · intro url hurl
        rw [hcaches]
        exact h.left url hurl
    · intro url
      rw [hcaches]
      exact h.idle url
  · have hcaches := h.caches_without hget howned
    have hcached : s.Caches entry.url := by
      refine ⟨_, OrderedMap.get_eq_some_iff.mp hget, ?_⟩
      exact CacheValue.owns_iff.mpr ⟨entry, rfl, howned, rfl⟩
    have hcaches' : ∀ url, (DriveImageCache.without key { s.cancelIdle entry.url with
        retired := insert entry.url s.retired }).Caches url ↔ s.Caches url ∧ url ≠ entry.url :=
      hcaches
    rw [heq]
    constructor
    · refine ⟨fun e he => h.given e (hsub e he),
        fun e he e' he' => h.single e (hsub e he) e' (hsub e' he'), ?_, ?_, h.nodup, ?_⟩
      · intro url hurl
        rw [hcaches']
        obtain rfl | hurl := Finset.mem_insert.mp hurl
        · exact ⟨h.minted hcached, hheld, fun hmem => hmem.2 rfl,
            fun hmem => (h.revoked _ hmem).2 hcached⟩
        · obtain ⟨hminted, hheld, hnot, hrevoked⟩ := h.retired url hurl
          exact ⟨hminted, hheld, fun hmem => hnot hmem.1, hrevoked⟩
      · intro url hurl
        rw [hcaches']
        obtain ⟨hminted, hnot⟩ := h.revoked url hurl
        exact ⟨hminted, fun hmem => hnot hmem.1⟩
      · intro url hurl
        rw [hcaches']
        by_cases hsame : url = entry.url
        · exact .inr (.inl (Finset.mem_insert.mpr (.inl hsame)))
        · obtain hleft | hleft | hleft := h.left url hurl
          · exact .inl ⟨hleft, hsame⟩
          · exact .inr (.inl (Finset.mem_insert.mpr (.inr hleft)))
          · exact .inr (.inr hleft)
    · intro url
      rw [hcaches']
      apply Finset.mem_erase.trans
      rw [h.idle, and_comm, and_right_comm]
      rfl
  · have hcaches := h.caches_without hget howned
    have hcached : s.Caches entry.url := by
      refine ⟨_, OrderedMap.get_eq_some_iff.mp hget, ?_⟩
      exact CacheValue.owns_iff.mpr ⟨entry, rfl, howned, rfl⟩
    rw [heq]
    refine @Revokes.inv entry.url _ _ ?_ _ h (h.minted hcached) ?_
    · refine ⟨hsub, ?_, ?_, fun _ _ => rfl, ?_, rfl, rfl⟩
      · exact fun other hne hother => (hcaches other).mpr ⟨hother, hne⟩
      · exact fun hmem => ((hcaches entry.url).mp hmem).2 rfl
      · apply (Finset.erase_eq_of_notMem _).symm
        exact fun hmem => (h.retired _ hmem).2.2.1 hcached
    · exact fun hmem => (h.revoked _ hmem).2 hcached

theorem Inv.deleteKey {passed : List DriveImageCacheEntry} {s : DriveImageCache}
    (h : Inv passed s) (key : Text) :
  Inv passed (s.deleteKey key)
  := h.without (fun _ _ _ => nofun)

/-- The time of an idle timeout evicts the URL. -/
theorem timeout_eq {passed : List DriveImageCacheEntry} {s : DriveImageCache}
    (h : Inv passed s) (url : Text) :
  s.timeout url = s ∨ ∃ key, s.timeout url = s.deleteKey key
  := by
  rw [timeout]
  by_cases hidle : url ∈ s.idle
  · obtain ⟨hcaches, hfree⟩ := (h.idle url).mp hidle
    have howner : s.ownerKey url ≠ none := mt ownerKey_eq_none_iff.mp (not_not.mpr hcaches)
    obtain ⟨key, hkey⟩ := Option.ne_none_iff_exists'.mp howner
    obtain ⟨entry, hmem, howned, rfl⟩ := mem_of_ownerKey hkey
    have hkey' : ownerKey { s with idle := s.idle.erase entry.url } entry.url = some key := hkey
    have hnot : ¬ 0 < s.holds entry.url := by
      rw [hfree]
      exact Nat.lt_irrefl 0
    have hretire : s.retire (some (.settled entry)) none =
        (s.cancelIdle entry.url).revoke entry.url := by
      obtain ⟨-, hnone⟩ | ⟨other, hother, -, ⟨hheld, -⟩ | ⟨-, heq⟩⟩ :=
        retire_cases s (some (.settled entry)) none
      · obtain hunowned | hnext := hnone entry rfl
        · rw [howned] at hunowned
          cases hunowned
        · cases hnext
      · cases hother
        exact absurd hheld hnot
      · cases hother
        exact heq
    right
    refine ⟨key, ?_⟩
    rw [if_pos hidle, DriveImageCache.deleteKey, OrderedMap.get_eq_some_iff.mpr hmem, hretire]
    simp only [hkey', if_neg hnot]
    rfl
  · rw [if_neg hidle]
    exact .inl rfl

/-! ### Entries that are cached -/

/-- The entries after an entry was cached under a key that had none. -/
structure Puts (key : Text) (value : CacheValue) (s s' : DriveImageCache) : Prop where
  absent : ∀ e ∈ s.entries.entries, e.1 ≠ key
  entries : ∀ e, e ∈ s'.entries.entries ↔ e = (key, value) ∨ e ∈ s.entries.entries
  holds : s'.holds = s.holds
  retired : s'.retired = s.retired
  idle : s'.idle = s.idle
  revoked : s'.revoked = s.revoked

theorem Puts.caches {key : Text} {value : CacheValue} {s s' : DriveImageCache}
    (hputs : Puts key value s s') (url : Text) :
  s'.Caches url ↔ value.owns url = true ∨ s.Caches url
  := by
  simp only [Caches, hputs.entries, or_and_right, exists_or, exists_eq_left]

theorem Puts.pending {key : Text} {s s' : DriveImageCache} (hputs : Puts key .pending s s')
    {passed : List DriveImageCacheEntry} (h : Inv passed s) :
  Inv passed s'
  := by
  have hcaches : ∀ url, s'.Caches url ↔ s.Caches url := by
    intro url
    rw [hputs.caches]
    exact or_iff_right Bool.false_ne_true
  constructor
  · refine ⟨?_, ?_, ?_, ?_, ?_, ?_⟩
    · intro e he entry hentry
      obtain rfl | he := (hputs.entries e).mp he
      · cases hentry
      · exact h.given e he entry hentry
    · intro e he e' he' url howns howns'
      obtain rfl | he := (hputs.entries e).mp he
      · cases howns
      · obtain rfl | he' := (hputs.entries e').mp he'
        · cases howns'
        · exact h.single e he e' he' url howns howns'
    · intro url hurl
      rw [hputs.retired] at hurl
      rw [hputs.holds, hputs.revoked, hcaches]
      exact h.retired url hurl
    · intro url hurl
      rw [hputs.revoked] at hurl
      rw [hcaches]
      exact h.revoked url hurl
    · rw [hputs.revoked]
      exact h.nodup
    · intro url hurl
      rw [hcaches, hputs.retired, hputs.revoked]
      exact h.left url hurl
  · intro url
    rw [hputs.idle, hputs.holds, hcaches]
    exact h.idle url

/-- An entry that was not passed before, and what was. -/
theorem minted_append {passed : List DriveImageCacheEntry} {entry : DriveImageCacheEntry}
    {url : Text} :
  Minted (passed ++ [entry]) url ↔ Minted passed url ∨ entry.objectUrl = true ∧ entry.url = url
  := by
  simp only [Minted, List.mem_append, List.mem_singleton, or_and_right, exists_or,
    exists_eq_left]

/-- The URL of a new entry is no owned object URL that was passed before. -/
theorem not_minted_of_setOnce {passed : List DriveImageCacheEntry} {entry : DriveImageCacheEntry}
    (hset : SetOnce (passed ++ [entry])) :
  ¬ Minted passed entry.url
  := by
  rintro ⟨other, hother, hminted, heq⟩
  exact (List.pairwise_append.mp hset).2.2 other hother entry (List.mem_singleton_self _)
    (.inl hminted) heq

theorem Puts.settled {key : Text} {entry : DriveImageCacheEntry} {s s' : DriveImageCache}
    (hputs : Puts key (.settled entry) s s') {passed : List DriveImageCacheEntry}
    (h : Inv passed s) (hset : SetOnce (passed ++ [entry])) :
  Owned (passed ++ [entry]) s'
  := by
  have hfresh : ∀ url, (CacheValue.settled entry).owns url = true → ¬ Minted passed url := by
    intro url howns
    obtain ⟨_, ⟨⟩, -, rfl⟩ := CacheValue.owns_iff.mp howns
    exact not_minted_of_setOnce hset
  have hnot : ∀ url, Minted passed url → ¬ s.Caches url → ¬ s'.Caches url := by
    intro url hminted hnot hcaches
    obtain howns | hcaches := (hputs.caches url).mp hcaches
    · exact hfresh url howns hminted
    · exact hnot hcaches
  refine ⟨?_, ?_, ?_, ?_, ?_, ?_⟩
  · intro e he other hother
    obtain rfl | he := (hputs.entries e).mp he
    · cases hother
      exact List.mem_append_right _ (List.mem_singleton_self _)
    · exact List.mem_append_left _ (h.given e he other hother)
  · intro e he e' he' url howns howns'
    obtain rfl | he := (hputs.entries e).mp he
    · obtain rfl | he' := (hputs.entries e').mp he'
      · rfl
      · exact absurd (h.minted ⟨e', he', howns'⟩) (hfresh url howns)
    · obtain rfl | he' := (hputs.entries e').mp he'
      · exact absurd (h.minted ⟨e, he, howns⟩) (hfresh url howns')
      · exact h.single e he e' he' url howns howns'
  · intro url hurl
    rw [hputs.retired] at hurl
    obtain ⟨hminted, hheld, hcaches, hrevoked⟩ := h.retired url hurl
    rw [hputs.holds, hputs.revoked]
    exact ⟨minted_append.mpr (.inl hminted), hheld, hnot url hminted hcaches, hrevoked⟩
  · intro url hurl
    rw [hputs.revoked] at hurl
    obtain ⟨hminted, hcaches⟩ := h.revoked url hurl
    exact ⟨minted_append.mpr (.inl hminted), hnot url hminted hcaches⟩
  · rw [hputs.revoked]
    exact h.nodup
  · intro url hurl
    rw [hputs.caches, hputs.retired, hputs.revoked]
    obtain hminted | howned := minted_append.mp hurl
    · obtain hleft | hleft := h.left url hminted
      · exact .inl (.inr hleft)
      · exact .inr hleft
    · exact .inl (.inl (CacheValue.owns_iff.mpr ⟨entry, rfl, howned⟩))

/-- What `set` does before it schedules a timeout. -/
theorem puts_setKey (s : DriveImageCache) (key : Text) (value : CacheValue) :
  Puts key value ((s.retire (s.entries.get key) (some value)).without key)
    { s.retire (s.entries.get key) (some value) with
      entries := (s.retire (s.entries.get key) (some value)).entries.set key value }
  := by
  refine ⟨?_, ?_, rfl, rfl, rfl, rfl⟩
  · intro e he
    exact (OrderedMap.mem_delete.mp he).2
  · intro e
    exact OrderedMap.mem_set.trans (or_congr_right OrderedMap.mem_delete.symm)

theorem Puts.settled_idle {key : Text} {entry : DriveImageCacheEntry} {s s' : DriveImageCache}
    (hputs : Puts key (.settled entry) s s') {passed : List DriveImageCacheEntry}
    (h : Inv passed s) (url : Text) :
  (url ∈ s'.idle → s'.Caches url ∧ s'.holds url = 0) ∧
    (url ≠ entry.url → s'.Caches url → s'.holds url = 0 → url ∈ s'.idle)
  := by
  rw [hputs.idle, hputs.holds, hputs.caches]
  constructor
  · intro hidle
    obtain ⟨hcaches, hfree⟩ := (h.idle url).mp hidle
    exact ⟨.inr hcaches, hfree⟩
  · intro hne hcaches hfree
    obtain howns | hcaches := hcaches
    · obtain ⟨_, ⟨⟩, -, rfl⟩ := CacheValue.owns_iff.mp howns
      exact absurd rfl hne
    · exact (h.idle url).mpr ⟨hcaches, hfree⟩

theorem Inv.setPending {passed : List DriveImageCacheEntry} {s : DriveImageCache}
    (h : Inv passed s) (key : Text) :
  Inv passed (s.setKey key .pending)
  := by
  have hwithout := @Inv.without _ _ h key (some .pending) (fun _ _ _ => nofun)
  exact (puts_setKey s key .pending).pending hwithout

theorem Inv.setSettled {passed : List DriveImageCacheEntry} {s : DriveImageCache}
    (h : Inv passed s) (key : Text) {entry : DriveImageCacheEntry}
    (hset : SetOnce (passed ++ [entry])) :
  Inv (passed ++ [entry]) (s.setKey key (.settled entry))
  := by
  have hfresh := not_minted_of_setOnce hset
  have hwithout : Inv passed
      ((s.retire (s.entries.get key) (some (.settled entry))).without key) := by
    apply h.without
    intro previous hprevious howned hsame
    have hmem := OrderedMap.get_eq_some_iff.mp hprevious
    exact hfresh ⟨previous, h.given _ hmem previous rfl, howned, (Option.some.inj hsame).symm⟩
  have hputs := puts_setKey s key (.settled entry)
  have howned := hputs.settled hwithout hset
  have hidle := hputs.settled_idle hwithout
  rw [setKey]
  generalize ({ s.retire (s.entries.get key) (some (.settled entry)) with
      entries := (s.retire (s.entries.get key) (some (.settled entry))).entries.set key
        (.settled entry) } : DriveImageCache) = s' at hputs howned hidle ⊢
  by_cases hheld : 0 < s'.holds entry.url
  · simp only [if_pos hheld]
    refine ⟨howned, fun url => ⟨(hidle url).1, ?_⟩⟩
    rintro ⟨hcaches, hfree⟩
    apply (hidle url).2 _ hcaches hfree
    rintro rfl
    exact absurd hfree hheld.ne'
  · simp only [if_neg hheld]
    exact howned.scheduleIdle (Nat.eq_zero_of_not_pos hheld) (fun url => (hidle url).1)
      (fun url => (hidle url).2)

/-! ### Steps -/

theorem settled?_eq_some {event : CacheEvent} {entry : DriveImageCacheEntry}
    (h : event.settled? = some entry) :
  ∃ clientId res, event = .set clientId res (.settled entry)
  := by
  cases event with
  | set clientId res value =>
    cases value with
    | pending => cases h
    | settled other =>
      obtain rfl : other = entry := Option.some.inj h
      exact ⟨clientId, res, rfl⟩
  | delete clientId res => cases h
  | hold url => cases h
  | release url => cases h
  | timeout url => cases h

theorem settledEntries_append (events : List CacheEvent) (event : CacheEvent) :
  settledEntries (events ++ [event]) = settledEntries events ++ event.settled?.toList
  := by
  rw [settledEntries, List.filterMap_append, ← settledEntries]
  cases h : event.settled? with
  | none => simp [h]
  | some entry => simp [h]

theorem Inv.step_none {passed : List DriveImageCacheEntry} {s : DriveImageCache}
    (h : Inv passed s) {event : CacheEvent} (hevent : event.settled? = none) :
  Inv passed (s.step event)
  := by
  cases event with
  | set clientId res value =>
    cases value with
    | pending => exact h.setPending (key clientId res)
    | settled entry => cases hevent
  | delete clientId res => exact h.deleteKey (key clientId res)
  | hold url => exact h.hold url
  | release url => exact h.release url
  | timeout url =>
    rw [DriveImageCache.step]
    obtain heq | ⟨key, heq⟩ := timeout_eq h url
    · rw [heq]
      exact h
    · rw [heq]
      exact h.deleteKey key

theorem Inv.step {events : List CacheEvent} {s : DriveImageCache}
    (h : Inv (settledEntries events) s) {event : CacheEvent}
    (hset : SetOnce (settledEntries (events ++ [event]))) :
  Inv (settledEntries (events ++ [event])) (s.step event)
  := by
  rw [settledEntries_append] at hset ⊢
  cases hevent : event.settled? with
  | none =>
    rw [Option.toList_none, List.append_nil]
    exact h.step_none hevent
  | some entry =>
    rw [hevent, Option.toList_some] at hset
    obtain ⟨clientId, res, rfl⟩ := settled?_eq_some hevent
    exact h.setSettled (key clientId res) hset

theorem scheduleIdle_fields (url : Text) (s : DriveImageCache) :
  (s.scheduleIdle url).holds = s.holds ∧ (s.scheduleIdle url).revoked = s.revoked
  := by
  obtain ⟨-, heq⟩ | ⟨-, heq⟩ := scheduleIdle_eq url s
  · rw [heq]
    exact ⟨rfl, rfl⟩
  · rw [heq]
    exact ⟨rfl, rfl⟩

/-- A URL that is revoked has no holder. -/
theorem retire_fields (s : DriveImageCache) (previous next : Option CacheValue) :
  (s.retire previous next).holds = s.holds ∧
    ∀ url ∈ (s.retire previous next).revoked, url ∈ s.revoked ∨ s.holds url = 0
  := by
  obtain ⟨heq, -⟩ | ⟨entry, -, -, ⟨-, heq⟩ | ⟨hfree, heq⟩⟩ := retire_cases s previous next
  · rw [heq]
    exact ⟨rfl, fun url hurl => .inl hurl⟩
  · rw [heq]
    exact ⟨rfl, fun url hurl => .inl hurl⟩
  · rw [heq]
    refine ⟨rfl, fun url hurl => ?_⟩
    obtain hurl | hurl := List.mem_append.mp hurl
    · exact .inl hurl
    · rw [List.mem_singleton.mp hurl]
      exact .inr hfree

theorem setKey_fields (s : DriveImageCache) (key : Text) (value : CacheValue) :
  (s.setKey key value).holds = s.holds ∧
    ∀ url ∈ (s.setKey key value).revoked, url ∈ s.revoked ∨ s.holds url = 0
  := by
  have hretire := retire_fields s (s.entries.get key) (some value)
  cases value with
  | pending => exact hretire
  | settled entry =>
    rw [setKey]
    dsimp only
    split
    case isTrue => exact hretire
    case isFalse =>
      rw [(scheduleIdle_fields _ _).1, (scheduleIdle_fields _ _).2]
      exact hretire

theorem release_fields (s : DriveImageCache) (url : Text) :
  (s.release url).holds = Function.update s.holds url (s.holds url - 1) ∧
    ∀ other ∈ (s.release url).revoked, other ∈ s.revoked ∨ other = url ∧ s.holds url - 1 = 0
  := by
  rw [DriveImageCache.release]
  by_cases hcount : 0 < s.holds url - 1
  · rw [if_pos hcount]
    exact ⟨rfl, fun other => .inl⟩
  · have hzero : s.holds url - 1 = 0 := Nat.eq_zero_of_not_pos hcount
    rw [if_neg hcount]
    by_cases hretired : url ∈ s.retired
    · simp only [if_pos hretired]
      refine ⟨?_, fun other hother => ?_⟩
      · rw [hzero]
        rfl
      · obtain hother | hother := List.mem_append.mp hother
        · exact .inl hother
        · exact .inr ⟨List.mem_singleton.mp hother, hzero⟩
    · simp only [if_neg hretired]
      rw [(scheduleIdle_fields _ _).1, (scheduleIdle_fields _ _).2, hzero]
      exact ⟨rfl, fun other => .inl⟩

/-- The number of holders that a cache counts after a step. -/
def heldAfter (s : DriveImageCache) (url : Text) : CacheEvent → Nat
  | .hold other => if other = url then s.holds url + 1 else s.holds url
  | .release other => if other = url then s.holds url - 1 else s.holds url
  | _ => s.holds url

theorem step_fields {passed : List DriveImageCacheEntry} {s : DriveImageCache} (h : Inv passed s)
    (event : CacheEvent) (url : Text) :
  (s.step event).holds url = s.heldAfter url event ∧
    (url ∈ (s.step event).revoked → url ∈ s.revoked ∨ (s.step event).holds url = 0)
  := by
  cases event with
  | set clientId res value =>
    obtain ⟨hholds, hrevoked⟩ := setKey_fields s (key clientId res) value
    refine ⟨congrFun hholds url, fun hurl => ?_⟩
    rw [step, set, hholds]
    exact hrevoked url hurl
  | delete clientId res =>
    obtain ⟨hholds, hrevoked⟩ := retire_fields s (s.entries.get (key clientId res)) none
    refine ⟨congrFun hholds url, fun hurl => ?_⟩
    rw [step, delete, deleteKey, hholds]
    exact hrevoked url hurl
  | hold other =>
    refine ⟨?_, .inl⟩
    by_cases heq : other = url
    · subst heq
      simp [step, DriveImageCache.hold, heldAfter, cancelIdle]
    · simp [step, DriveImageCache.hold, heldAfter, cancelIdle, heq, Ne.symm heq]
  | release other =>
    have hholds := release_fields s other
    rw [step, hholds.1]
    refine ⟨?_, fun hurl => ?_⟩
    · by_cases heq : other = url
      · subst heq
        simp [heldAfter]
      · simp [heldAfter, heq, Ne.symm heq]
    · obtain hurl | ⟨rfl, hzero⟩ := hholds.2 url hurl
      · exact .inl hurl
      · rw [Function.update_self]
        exact .inr hzero
  | timeout other =>
    rw [step]
    obtain heq | ⟨key, heq⟩ := timeout_eq h other
    · rw [heq]
      exact ⟨rfl, .inl⟩
    · obtain ⟨hholds, hrevoked⟩ := retire_fields s (s.entries.get key) none
      rw [heq, deleteKey, hholds]
      exact ⟨rfl, hrevoked url⟩

/-! ### The law of a cache -/

theorem run_append (events : List CacheEvent) (event : CacheEvent) :
  run (events ++ [event]) = (run events).step event
  := by
  rw [run, List.foldl_append]
  rfl

theorem setOnce_init {events : List CacheEvent} {event : CacheEvent}
    (h : SetOnce (settledEntries (events ++ [event]))) :
  SetOnce (settledEntries events)
  := by
  rw [settledEntries_append] at h
  exact (List.pairwise_append.mp h).1

theorem inv_run {events : List CacheEvent} (h : SetOnce (settledEntries events)) :
  Inv (settledEntries events) (run events)
  := by
  induction events using List.reverseRecOn with
  | nil => exact inv_new
  | append_singleton events event ih =>
    rw [run_append]
    exact (ih (setOnce_init h)).step h

theorem releasedAsHeld_init {before after : List CacheEvent}
    (h : ReleasedAsHeld (before ++ after)) :
  ReleasedAsHeld before
  := by
  intro i url hget
  obtain ⟨hi, -⟩ := List.getElem?_eq_some_iff.mp hget
  have hheld := h i url ((List.getElem?_append_left hi).trans hget)
  rwa [List.take_append_of_le_length hi.le] at hheld

/-- The holders that a cache counts are the calls of `hold` that were not released. -/
theorem holds_run {events : List CacheEvent} (hset : SetOnce (settledEntries events))
    (hrelease : ReleasedAsHeld events) (url : Text) :
  (run events).holds url = holders events url ∧
    events.count (.release url) ≤ events.count (.hold url)
  := by
  induction events using List.reverseRecOn with
  | nil => exact ⟨rfl, Nat.le_refl _⟩
  | append_singleton events event ih =>
    obtain ⟨hholds, hle⟩ := ih (setOnce_init hset) (releasedAsHeld_init hrelease)
    rw [run_append, (step_fields (inv_run (setOnce_init hset)) event url).1, holders,
      List.count_append, List.count_append, List.count_singleton, List.count_singleton]
    rw [holders] at hholds
    cases event with
    | set clientId res value => simpa [heldAfter] using ⟨hholds, hle⟩
    | delete clientId res => simpa [heldAfter] using ⟨hholds, hle⟩
    | hold other =>
      by_cases heq : other = url
      · simp [heldAfter, heq]
        omega
      · simpa [heldAfter, heq] using ⟨hholds, hle⟩
    | release other =>
      by_cases heq : other = url
      · have hpos := hrelease events.length other List.getElem?_concat_length
        rw [heq, holders, List.take_left] at hpos
        simp [heldAfter, heq]
        omega
      · simpa [heldAfter, heq] using ⟨hholds, hle⟩
    | timeout other => simpa [heldAfter] using ⟨hholds, hle⟩

end DriveImageCache

/-- The law of a cache that has run: whose object URLs are revoked, and which timeouts are
pending. -/
structure CacheLaw (events : List CacheEvent) : Prop where
  /-- What a call revokes is an owned object URL without a holder and no cached entry. -/
  free : ∀ before event after, events = before ++ event :: after →
    ∀ url ∈ (DriveImageCache.run (before ++ [event])).revoked,
      url ∉ (DriveImageCache.run before).revoked →
      Minted (settledEntries (before ++ [event])) url ∧ holders (before ++ [event]) url = 0 ∧
        ¬ (DriveImageCache.run (before ++ [event])).Caches url
  once : (DriveImageCache.run events).revoked.Nodup
  left : ∀ url, Minted (settledEntries events) url → ¬ (DriveImageCache.run events).Caches url →
    holders events url = 0 → url ∈ (DriveImageCache.run events).revoked
  pending : ∀ url, (DriveImageCache.run events).Caches url → holders events url = 0 →
    url ∈ (DriveImageCache.run events).idle

/-- Object URLs are revoked once, when they are neither held nor cached, and none is forgotten. -/
theorem cache_law {events : List CacheEvent} (hset : SetOnce (settledEntries events))
    (hrelease : ReleasedAsHeld events) :
  CacheLaw events
  := by
  have hinv := DriveImageCache.inv_run hset
  have hholds := fun url => (DriveImageCache.holds_run hset hrelease url).1
  refine ⟨?_, hinv.nodup, ?_, ?_⟩
  · intro before event after heq url hurl hnew
    rw [List.append_cons] at heq
    have hset' : SetOnce (settledEntries (before ++ [event])) := by
      rw [heq, settledEntries, List.filterMap_append] at hset
      exact (List.pairwise_append.mp hset).1
    have hinv' := DriveImageCache.inv_run hset'
    obtain ⟨hminted, hcaches⟩ := hinv'.revoked url hurl
    refine ⟨hminted, ?_, hcaches⟩
    rw [heq] at hrelease
    rw [← (DriveImageCache.holds_run hset'
      (DriveImageCache.releasedAsHeld_init hrelease) url).1]
    rw [DriveImageCache.run_append] at hurl ⊢
    have hbefore := DriveImageCache.inv_run (DriveImageCache.setOnce_init hset')
    exact ((DriveImageCache.step_fields hbefore event url).2 hurl).resolve_left hnew
  · intro url hminted hcaches hfree
    rw [← hholds] at hfree
    obtain hleft | hleft | hleft := hinv.left url hminted
    · exact absurd hleft hcaches
    · exact absurd hfree (hinv.retired url hleft).2.1.ne'
    · exact hleft
  · intro url hcaches hfree
    rw [← hholds] at hfree
    exact (hinv.idle url).mpr ⟨hcaches, hfree⟩

/-- An entry that is served was not revoked. -/
theorem getFresh_not_revoked {events : List CacheEvent} (hset : SetOnce (settledEntries events))
    {clientId : Text} {res : DriveImageResolution} {now : Int} {entry : DriveImageCacheEntry}
    (h : (DriveImageCache.run events).getFresh clientId res now = some entry)
    (howned : entry.objectUrl = true) :
  entry.url ∉ (DriveImageCache.run events).revoked
  := by
  have hmem : ∃ e ∈ (DriveImageCache.run events).entries.entries, e.2 = .settled entry := by
    rw [DriveImageCache.getFresh] at h
    split at h
    case h_1 cached hget =>
      split at h
      case isTrue =>
        obtain rfl : cached = entry := Option.some.inj h
        exact ⟨_, OrderedMap.get_eq_some_iff.mp hget, rfl⟩
      case isFalse => cases h
    case h_2 => cases h
  obtain ⟨e, he, hvalue⟩ := hmem
  intro hrevoked
  apply ((DriveImageCache.inv_run hset).revoked _ hrevoked).2
  exact ⟨e, he, CacheValue.owns_iff.mpr ⟨entry, hvalue, howned, rfl⟩⟩

def sampleImage : DriveImageResolution :=
  ⟨"o".toList, "d".toList, "/a.png".toList⟩

/-- An image that is replaced while it is shown, and its successor that nobody shows. -/
def sampleCacheEvents : List CacheEvent :=
  [ .set "c".toList sampleImage .pending,
    .set "c".toList sampleImage (.settled ⟨"blob:1".toList, some 600000, true⟩),
    .hold "blob:1".toList,
    .set "c".toList sampleImage (.settled ⟨"blob:2".toList, some 900000, true⟩),
    .release "blob:1".toList, .timeout "blob:2".toList ]

theorem cache_law_replaced :
  CacheLaw sampleCacheEvents
  := by
  apply cache_law
  · unfold SetOnce
    decide
  · intro i url h
    obtain _ | _ | _ | _ | _ | _ | i := i
    case succ.succ.succ.succ.zero =>
      obtain rfl : "blob:1".toList = url := CacheEvent.release.inj (Option.some.inj h)
      decide
    all_goals cases h

example :
    (DriveImageCache.run sampleCacheEvents).revoked = ["blob:1".toList, "blob:2".toList] := by
  decide

end AgentFs
